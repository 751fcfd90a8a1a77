import Mathlib.Data.List.Count
import TinyMuduo.Timer.TimerQueue

/-!
# The two sets of a timer queue

A live timer is in exactly one place: in flight, in `timers_` or in the part of the vector `expired`
that is still used. `activeTimers_` has the timers of `timers_`, each under its address and its
sequence number. This file states that as an invariant of the queue, and shows for each change that
a step makes that the invariant is kept.

## Main definitions

* `TimerQueue.places`: the number of places that a timer is in.
* `TimerQueue.Inv`: the invariant.
* `TimerQueue.added`, `TimerQueue.removed`, `TimerQueue.deleted`, `TimerQueue.batch`: the changes.

## Main results

* `TimerQueue.exists_live_of_mem`, `TimerQueue.exists_live_of_expired`: an entry has a live timer.
* `TimerQueue.Inv.insert`, `TimerQueue.Inv.remove`, `TimerQueue.Inv.discard`,
  `TimerQueue.Inv.batch`, `TimerQueue.Inv.new`, `TimerQueue.Inv.count`, `TimerQueue.Inv.load`: the
  changes keep the invariant.
-/

namespace TinyMuduo

/-- There is a timer. -/
def Cell.isLive {C : Type} : Cell C → Bool
  | live _ => true
  | free | raw => false

/-- The callbacks of a batch are being called. -/
def ReadPhase.isCalling : ReadPhase → Bool
  | .calling .. | .callback .. => true
  | _ => false

namespace TimerQueue

variable {T C : Type} (q : TimerQueue T C)

/-- The number of places in which a timer is used. -/
def places (p : Addr) : ℕ :=
  q.inFlight.count p + (q.timers_.toList.map Entry.timer).count p +
    (q.phase.expired.map Entry.timer).count p

/-- The invariant of the queue. -/
structure Inv : Prop where
  places_eq (p : Addr) : q.places p = if (q.heap p).isLive then 1 else 0
  making_raw {c m} (h : q.making c = some m) : q.heap m.addr = .raw
  making_inj {c c' m m'} (h : q.making c = some m) (h' : q.making c' = some m')
    (heq : m.addr = m'.addr) : c = c'
  keyed {e t} (he : e ∈ q.timers_) (ht : q.heap e.timer = .live t) : t.expiration_ = e.when_
  active (id : TimerId) : id ∈ q.activeTimers_ ↔
    ∃ t, q.heap id.timer_ = .live t ∧ t.sequence_ = id.sequence_ ∧
      ⟨t.expiration_, id.timer_⟩ ∈ q.timers_
  size_eq : q.timers_.size = q.activeTimers_.size
  flag : q.callingExpiredTimers_ = q.phase.isCalling

/-! ### One place for each timer -/

private theorem count_insert {s : OrderedSet Entry} {e : Entry} (h : e ∉ s) (p : Addr) :
    ((s.insert e).1.toList.map Entry.timer).count p =
      (s.toList.map Entry.timer).count p + if e.timer = p then 1 else 0 := by
  rw [((OrderedSet.toList_insert_perm h).map _).count_eq, List.map_cons, List.count_cons]
  simp

private theorem count_erase {s : OrderedSet Entry} {e : Entry} (h : e ∈ s) (p : Addr) :
    (s.toList.map Entry.timer).count p =
      ((s.erase e).1.toList.map Entry.timer).count p + if e.timer = p then 1 else 0 := by
  rw [((OrderedSet.toList_erase_perm h).map _).count_eq, List.map_cons, List.count_cons]
  simp

private theorem count_drop (s : OrderedSet Entry) (n : ℕ) (p : Addr) :
    (s.toList.map Entry.timer).count p =
      ((s.drop n).toList.map Entry.timer).count p +
        ((s.toList.take n).map Entry.timer).count p := by
  rw [Nat.add_comm, ← List.count_append, ← List.map_append]
  exact congrArg (fun l => (l.map Entry.timer).count p) (List.take_append_drop n s.toList).symm

variable {q}

theorem count_erase_inFlight {p : Addr} (hp : p ∈ q.inFlight) (p' : Addr) (k : ℕ) :
    (q.inFlight.erase p).count p' + k + (if p = p' then 1 else 0) = q.inFlight.count p' + k := by
  rw [(List.perm_cons_erase hp).count_eq p', List.count_cons]
  simp only [beq_iff_eq]
  omega

theorem count_expired {now : ℤ} {done todo : List Entry} {it : Entry}
    (hphase : q.phase = .resetting now done (it :: todo)) (p : Addr) (k : ℕ) :
    k + (todo.map Entry.timer).count p + (if it.timer = p then 1 else 0) =
      k + (q.phase.expired.map Entry.timer).count p := by
  rw [hphase, ReadPhase.expired, List.map_cons, List.count_cons]
  simp only [beq_iff_eq]
  omega

variable (h : q.Inv)

include h

private theorem exists_live_of_places {p : Addr} (hp : 0 < q.places p) :
    ∃ t, q.heap p = .live t := by
  have hlive := h.places_eq p
  cases hcell : q.heap p with
  | live t => exact ⟨t, rfl⟩
  | free | raw => simp [Cell.isLive, hcell, hlive] at hp

theorem exists_live_of_mem {e : Entry} (he : e ∈ q.timers_) : ∃ t, q.heap e.timer = .live t := by
  refine exists_live_of_places h ?_
  have hpos : 0 < (q.timers_.toList.map Entry.timer).count e.timer :=
    List.count_pos_iff.mpr (List.mem_map_of_mem he)
  rw [places]
  omega

theorem exists_live_of_expired {e : Entry} (he : e ∈ q.phase.expired) :
    ∃ t, q.heap e.timer = .live t := by
  refine exists_live_of_places h ?_
  have hpos : 0 < (q.phase.expired.map Entry.timer).count e.timer :=
    List.count_pos_iff.mpr (List.mem_map_of_mem he)
  rw [places]
  omega

theorem exists_live_of_inFlight {p : Addr} (hp : p ∈ q.inFlight) : ∃ t, q.heap p = .live t := by
  refine exists_live_of_places h ?_
  have hpos : 0 < q.inFlight.count p := List.count_pos_iff.mpr hp
  rw [places]
  omega

/-- A timer is in one place at most. -/
theorem places_le_one (p : Addr) : q.places p ≤ 1 := by
  rw [h.places_eq]
  split_ifs <;> omega

theorem nodup_timers : (q.timers_.toList.map Entry.timer).Nodup := by
  refine List.nodup_iff_count_le_one.mpr fun p => ?_
  have hle := places_le_one h p
  rw [places] at hle
  omega

theorem ne_of_mem_of_inFlight {e : Entry} {p : Addr} (he : e ∈ q.timers_) (hp : p ∈ q.inFlight) :
    e.timer ≠ p := by
  rintro rfl
  have hle := places_le_one h e.timer
  have h1 : 0 < q.inFlight.count e.timer := List.count_pos_iff.mpr hp
  have h2 : 0 < (q.timers_.toList.map Entry.timer).count e.timer :=
    List.count_pos_iff.mpr (List.mem_map_of_mem he)
  rw [places] at hle
  omega

theorem ne_of_mem_of_expired {e f : Entry} (he : e ∈ q.timers_) (hf : f ∈ q.phase.expired) :
    e.timer ≠ f.timer := by
  intro heq
  have hle := places_le_one h e.timer
  have h1 : 0 < (q.phase.expired.map Entry.timer).count e.timer :=
    List.count_pos_iff.mpr (heq ▸ List.mem_map_of_mem hf)
  have h2 : 0 < (q.timers_.toList.map Entry.timer).count e.timer :=
    List.count_pos_iff.mpr (List.mem_map_of_mem he)
  rw [places] at hle
  omega

theorem ne_of_mem_expired_of_inFlight {e : Entry} {p : Addr} (he : e ∈ q.phase.expired)
    (hp : p ∈ q.inFlight) : e.timer ≠ p := by
  rintro rfl
  have hle := places_le_one h e.timer
  have h1 : 0 < q.inFlight.count e.timer := List.count_pos_iff.mpr hp
  have h2 : 0 < (q.phase.expired.map Entry.timer).count e.timer :=
    List.count_pos_iff.mpr (List.mem_map_of_mem he)
  rw [places] at hle
  omega

theorem notMem_erase_inFlight (p : Addr) : p ∉ q.inFlight.erase p := by
  intro hp
  have hle := places_le_one h p
  have hpos := List.count_pos_iff.mpr hp
  rw [List.count_erase_self] at hpos
  rw [places] at hle
  omega

/-- The address of a timer that is in flight or in the batch is not in the sets. -/
theorem notMem_active_of_notMem {p : Addr} (hp : ∀ e ∈ q.timers_, e.timer ≠ p) (n : ℕ) :
    ⟨p, n⟩ ∉ q.activeTimers_ := by
  intro hactive
  obtain ⟨t, -, -, hmem⟩ := (h.active _).mp hactive
  exact hp _ hmem rfl

omit h

/-! ### The changes of the queue -/

/-- The queue after the deletion of a timer. -/
def deleted (q : TimerQueue T C) (p : Addr) (t : Timer C) : TimerQueue T C :=
  { q with heap := Function.update q.heap p .free, log := q.log ++ [.deleted t.serial] }
/-- The queue after the insertion of a timer. -/
def added (q : TimerQueue T C) (p : Addr) (t : Timer C) : TimerQueue T C :=
  { q with
    timers_ := (q.timers_.insert ⟨t.expiration_, p⟩).1
    activeTimers_ := (q.activeTimers_.insert ⟨p, t.sequence_⟩).1
    log := q.log ++ [.inserted t.serial] }

/-- The queue after the removal and the deletion of a timer. -/
def removed (q : TimerQueue T C) (p : Addr) (t : Timer C) : TimerQueue T C :=
  { q.deleted p t with
    timers_ := (q.timers_.erase ⟨t.expiration_, p⟩).1
    activeTimers_ := (q.activeTimers_.erase ⟨p, t.sequence_⟩).1 }

/-- The queue when `handleRead` has taken the first `n` timers. -/
def batch (q : TimerQueue T C) (now : ℤ) (n : ℕ) (active : OrderedSet TimerId) : TimerQueue T C :=
  { q with
    timerfd_ := none
    timers_ := q.timers_.drop n
    activeTimers_ := active
    callingExpiredTimers_ := true
    caneclingTimers_ := .empty
    phase := .calling now [] (q.timers_.toList.take n)
    cancelled := []
    log := q.log ++ [.read] }

/-! ### The invariant is kept -/

/-- Fields that the invariant does not mention, with a phase that uses the same entries. -/
theorem Inv.of_expired_eq (h : q.Inv) {phase : ReadPhase}
    (hexpired : phase.expired = q.phase.expired) {flag : Bool} (hflag : flag = phase.isCalling)
    (fd : Option ℤ) (canceling : OrderedSet TimerId) (cancelled : List TimerId)
    (log : List TimerEvent) :
    Inv { q with
      timerfd_ := fd
      caneclingTimers_ := canceling
      callingExpiredTimers_ := flag
      phase := phase
      cancelled := cancelled
      log := log } where
  places_eq p := by
    have hplaces := h.places_eq p
    rw [places, ← hexpired] at hplaces
    exact hplaces
  making_raw := h.making_raw
  making_inj := h.making_inj
  keyed := h.keyed
  active := h.active
  size_eq := h.size_eq
  flag := hflag

/-- Another timer does not see an update of the heap. -/
theorem isLive_update (heap : Addr → Cell C) (p : Addr) (c : Cell C) (p' : Addr) :
    (Function.update heap p c p').isLive = if p = p' then c.isLive else (heap p').isLive := by
  by_cases hp : p = p'
  · rw [if_pos hp, ← hp, Function.update_self]
  · rw [if_neg hp, Function.update_of_ne (Ne.symm hp)]

/-- A timer after a timer has been written. -/
theorem of_update_live {heap : Addr → Cell C} {p p' : Addr} {t₀ t : Timer C}
    (h : Function.update heap p (.live t₀) p' = .live t) :
    p' = p ∧ t₀ = t ∨ p' ≠ p ∧ heap p' = .live t := by
  by_cases hp : p' = p
  · subst hp
    exact .inl ⟨rfl, Cell.live.inj ((Function.update_self p' _ heap).symm.trans h)⟩
  · exact .inr ⟨hp, (Function.update_of_ne hp ..).symm.trans h⟩

/-- A timer after something else has been written. -/
theorem of_update_dead {heap : Addr → Cell C} {p p' : Addr} {c : Cell C} {t : Timer C}
    (h : Function.update heap p c p' = .live t) (hc : c.isLive = false) :
    p' ≠ p ∧ heap p' = .live t := by
  have hp : p' ≠ p := by
    rintro rfl
    rw [Function.update_self] at h
    rw [h] at hc
    cases hc
  exact ⟨hp, (Function.update_of_ne hp ..).symm.trans h⟩

/-- Both sets become smaller together. -/
theorem Inv.size_erase_eq (h : q.Inv) {e : Entry} {id : TimerId} (hmem : e ∈ q.timers_)
    (hactive : id ∈ q.activeTimers_) :
    (q.timers_.erase e).1.size = (q.activeTimers_.erase id).1.size := by
  have htimers := OrderedSet.size_erase_of_mem hmem
  have hids := OrderedSet.size_erase_of_mem hactive
  have hsize := h.size_eq
  omega

/-- Where a timer is being made, nothing else is written. -/
theorem Inv.making_update (h : q.Inv) {p : Addr} {t : Timer C} (ht : q.heap p = .live t)
    (cell : Cell C) {c : Option T} {m : Making C} (hm : q.making c = some m) :
    Function.update q.heap p cell m.addr = .raw := by
  have hraw := h.making_raw hm
  have hne : m.addr ≠ p := fun heq => by simp [heq, ht] at hraw
  exact (Function.update_of_ne hne ..).trans hraw

/-- The insertion of a timer that leaves the vector `inFlight` or the batch. -/
theorem Inv.insert (h : q.Inv) {p : Addr} {t t' : Timer C} (ht : q.heap p = .live t)
    (hp : ∀ e ∈ q.timers_, e.timer ≠ p) {heap : Addr → Cell C}
    (hheap : heap = Function.update q.heap p (.live t')) {inFlight : List Addr} {phase : ReadPhase}
    (hplaces : ∀ p', inFlight.count p' + (phase.expired.map Entry.timer).count p' +
        (if p = p' then 1 else 0) =
      q.inFlight.count p' + (q.phase.expired.map Entry.timer).count p')
    (hflag : phase.isCalling = q.phase.isCalling) (fd : Option ℤ) (log : List TimerEvent) :
    Inv { ({ q with heap := heap } : TimerQueue T C).added p t' with
      timerfd_ := fd
      inFlight := inFlight
      phase := phase
      log := log } where
  places_eq p' := by
    have hold := h.places_eq p'
    have hsum := hplaces p'
    have hcount := count_insert (s := q.timers_) (e := ⟨t'.expiration_, p⟩)
      (fun hmem => hp _ hmem rfl) p'
    simp only [places, added, hheap, isLive_update] at hold ⊢
    rw [hcount]
    by_cases heq : p = p'
    · subst heq
      simp only [ht, Cell.isLive, if_true] at hold hsum ⊢
      omega
    · simp only [if_neg heq] at hsum ⊢
      omega
  making_raw hm := by
    simpa only [added, hheap] using h.making_update ht _ hm
  making_inj := h.making_inj
  keyed {e t''} he ht'' := by
    simp only [added, hheap, OrderedSet.mem_insert] at he ht''
    rcases he with rfl | he
    · rw [Function.update_self] at ht''
      exact congrArg Timer.expiration_ (Cell.live.inj ht'').symm
    · rw [Function.update_of_ne (hp e he)] at ht''
      exact h.keyed he ht''
  active id := by
    obtain ⟨p', n⟩ := id
    simp only [added, hheap, OrderedSet.mem_insert]
    by_cases heq : p' = p
    · subst heq
      have hactive := notMem_active_of_notMem h hp n
      have hmem (when_ : ℤ) : ⟨when_, p'⟩ ∉ q.timers_ := fun hmem => hp _ hmem rfl
      simp [hactive, hmem, eq_comm]
    · rw [Function.update_of_ne heq, h.active ⟨p', n⟩]
      simp [heq]
  size_eq := by
    have hnew : ⟨t'.expiration_, p⟩ ∉ q.timers_ := fun hmem => hp _ hmem rfl
    have hnew' := notMem_active_of_notMem h hp t'.sequence_
    simp only [added]
    rw [OrderedSet.size_insert_of_notMem hnew, OrderedSet.size_insert_of_notMem hnew', h.size_eq]
  flag := h.flag.trans hflag.symm

/-- The deletion of a timer that is in `timers_`, together with its removal from the sets. -/
theorem Inv.remove (h : q.Inv) {p : Addr} {t : Timer C} (ht : q.heap p = .live t)
    (hmem : ⟨t.expiration_, p⟩ ∈ q.timers_) (cancelled : List TimerId) (log : List TimerEvent) :
    Inv { q.removed p t with cancelled := cancelled, log := log } where
  places_eq p' := by
    have hold := h.places_eq p'
    have hcount := count_erase hmem p'
    simp only [places, removed, deleted, isLive_update] at hold ⊢
    by_cases heq : p = p'
    · subst heq
      simp only [ht, Cell.isLive, if_true, Bool.false_eq_true, if_false] at hold hcount ⊢
      omega
    · simp only [if_neg heq] at hcount ⊢
      omega
  making_raw hm := h.making_update ht _ hm
  making_inj := h.making_inj
  keyed {e t'} he ht' := by
    simp only [removed, deleted, OrderedSet.mem_erase] at he ht'
    by_cases heq : e.timer = p
    · simp [heq] at ht'
    · rw [Function.update_of_ne heq] at ht'
      exact h.keyed he.2 ht'
  active id := by
    obtain ⟨p', n⟩ := id
    simp only [removed, deleted, OrderedSet.mem_erase]
    by_cases heq : p' = p
    · subst heq
      have hactive := h.active ⟨p', n⟩
      simp only [ht, Cell.live.injEq, exists_eq_left', hmem, and_true] at hactive
      simp [hactive, eq_comm]
    · rw [Function.update_of_ne heq, h.active ⟨p', n⟩]
      simp [heq]
  size_eq := h.size_erase_eq hmem ((h.active _).mpr ⟨t, ht, rfl, hmem⟩)
  flag := h.flag

/-- The deletion of the next timer of the batch. -/
theorem Inv.discard (h : q.Inv) {p : Addr} {t : Timer C} (ht : q.heap p = .live t)
    (hp : ∀ e ∈ q.timers_, e.timer ≠ p) {phase : ReadPhase}
    (hplaces : ∀ p', q.inFlight.count p' + (phase.expired.map Entry.timer).count p' +
        (if p = p' then 1 else 0) =
      q.inFlight.count p' + (q.phase.expired.map Entry.timer).count p')
    (hflag : phase.isCalling = q.phase.isCalling) :
    Inv { q.deleted p t with phase := phase } where
  places_eq p' := by
    have hold := h.places_eq p'
    have hsum := hplaces p'
    simp only [places, deleted, isLive_update] at hold ⊢
    by_cases heq : p = p'
    · subst heq
      simp only [ht, Cell.isLive, if_true, Bool.false_eq_true, if_false] at hold hsum ⊢
      omega
    · simp only [if_neg heq] at hsum ⊢
      omega
  making_raw hm := h.making_update ht _ hm
  making_inj := h.making_inj
  keyed {e t'} he ht' := by
    simp only [deleted, Function.update_of_ne (hp e he)] at ht'
    exact h.keyed he ht'
  active id := by
    obtain ⟨p', n⟩ := id
    simp only [deleted]
    by_cases heq : p' = p
    · subst heq
      have hactive := notMem_active_of_notMem h hp n
      simp [hactive]
    · rw [Function.update_of_ne heq, h.active ⟨p', n⟩]
  size_eq := h.size_eq
  flag := h.flag.trans hflag.symm

/-- The start of `handleRead`. -/
theorem Inv.batch (h : q.Inv) (hphase : q.phase = .idle) (now : ℤ) (n : ℕ)
    {active : OrderedSet TimerId} (hsize : (q.timers_.drop n).size = active.size)
    (hactive : ∀ id, id ∈ active ↔
      id ∈ q.activeTimers_ ∧ id.timer_ ∉ (q.timers_.toList.take n).map Entry.timer) :
    (q.batch now n active).Inv where
  places_eq p := by
    have hcount := count_drop q.timers_ n p
    refine Eq.trans ?_ (h.places_eq p)
    simp only [places, hphase, ReadPhase.expired, TimerQueue.batch, List.nil_append, List.map_nil,
      List.count_nil]
    omega
  making_raw := h.making_raw
  making_inj := h.making_inj
  keyed he ht := h.keyed (OrderedSet.mem_of_mem_drop he) ht
  active id := by
    obtain ⟨p, m⟩ := id
    refine (hactive _).trans ?_
    rw [h.active ⟨p, m⟩]
    constructor
    · rintro ⟨⟨t, ht, hseq, hmem⟩, hnot⟩
      refine ⟨t, ht, hseq, OrderedSet.mem_drop_iff.mpr ⟨hmem, fun htake => hnot ?_⟩⟩
      exact List.mem_map_of_mem (f := Entry.timer) htake
    · rintro ⟨t, ht, hseq, hmem⟩
      obtain ⟨hmem', hnot⟩ := OrderedSet.mem_drop_iff.mp hmem
      refine ⟨⟨t, ht, hseq, hmem'⟩, fun htake => hnot ?_⟩
      obtain ⟨e, he, heq⟩ := List.mem_map.mp htake
      have hkey : t.expiration_ = e.when_ :=
        h.keyed (List.mem_of_mem_take he) (by rw [heq]; exact ht)
      obtain ⟨when_, p'⟩ := e
      obtain rfl : p' = p := heq
      rw [hkey]
      exact he
  size_eq := hsize
  flag := rfl

/-- The constructions after a step of one of them. -/
theorem update_eq_some [DecidableEq T] {making : Option T → Option (Making C)}
    {caller c : Option T} {x : Option (Making C)} {m : Making C}
    (h : Function.update making caller x c = some m) :
    c = caller ∧ x = some m ∨ c ≠ caller ∧ making c = some m := by
  by_cases hc : c = caller
  · subst hc
    exact .inl ⟨rfl, by rwa [Function.update_self] at h⟩
  · exact .inr ⟨hc, by rwa [Function.update_of_ne hc] at h⟩

/-- The allocation of memory for a timer. -/
theorem Inv.new [DecidableEq T] (h : q.Inv) {caller : Option T} {p : Addr} {m : Making C}
    (hp : q.heap p = .free) (hm : m.addr = p) (born : ℕ) :
    Inv { q with
      heap := Function.update q.heap p .raw
      making := Function.update q.making caller (some m)
      born := born } := by
  have hother {c : Option T} {m' : Making C} (hm' : q.making c = some m') : m'.addr ≠ p := by
    intro heq
    have hraw := h.making_raw hm'
    simp [heq, hp] at hraw
  refine ⟨fun p' => (h.places_eq p').trans ?_, fun h₁ => ?_, fun h₁ h₂ heq => ?_,
    fun {e t} he ht => ?_, fun id => (h.active id).trans ?_, h.size_eq, h.flag⟩
  · simp only [isLive_update]
    by_cases heq : p = p'
    · simp [← heq, hp, Cell.isLive]
    · simp only [if_neg heq]
  · rcases update_eq_some h₁ with ⟨-, hm'⟩ | ⟨-, hm'⟩
    · obtain rfl := Option.some.inj hm'
      exact hm ▸ Function.update_self ..
    · exact (Function.update_of_ne (hother hm') ..).trans (h.making_raw hm')
  · rcases update_eq_some h₁ with ⟨hc₁, hm₁⟩ | ⟨-, hm₁⟩ <;>
      rcases update_eq_some h₂ with ⟨hc₂, hm₂⟩ | ⟨-, hm₂⟩
    · rw [hc₁, hc₂]
    · obtain rfl := Option.some.inj hm₁
      exact absurd (heq.symm.trans hm) (hother hm₂)
    · obtain rfl := Option.some.inj hm₂
      exact absurd (heq.trans hm) (hother hm₁)
    · exact h.making_inj hm₁ hm₂ heq
  · exact h.keyed he (of_update_dead ht rfl).2
  · refine exists_congr fun t => and_congr_left' ?_
    by_cases heq : id.timer_ = p
    · simp [heq, hp]
    · simp only [Function.update_of_ne heq]

/-- The increment of `s_numCreated`. -/
theorem Inv.count [DecidableEq T] (h : q.Inv) {caller : Option T} {m m' : Making C}
    (hmaking : q.making caller = some m) (hm : m'.addr = m.addr) (s_numCreated : ℕ) :
    Inv { q with
      s_numCreated := s_numCreated
      making := Function.update q.making caller (some m') } := by
  have hold {c : Option T} {m₁ : Making C}
      (h₁ : Function.update q.making caller (some m') c = some m₁) :
      ∃ m₂, q.making c = some m₂ ∧ m₂.addr = m₁.addr := by
    rcases update_eq_some h₁ with ⟨rfl, hm₁⟩ | ⟨-, hm₁⟩
    · obtain rfl := Option.some.inj hm₁
      exact ⟨m, hmaking, hm.symm⟩
    · exact ⟨m₁, hm₁, rfl⟩
  refine ⟨h.places_eq, fun h₁ => ?_, fun h₁ h₂ heq => ?_, h.keyed, h.active, h.size_eq, h.flag⟩
  · obtain ⟨m₂, hm₂, haddr⟩ := hold h₁
    rw [← haddr]
    exact h.making_raw hm₂
  · obtain ⟨m₁, hm₁, haddr₁⟩ := hold h₁
    obtain ⟨m₂, hm₂, haddr₂⟩ := hold h₂
    exact h.making_inj hm₁ hm₂ (by rw [haddr₁, haddr₂, heq])

/-- The end of a construction. -/
theorem Inv.load [DecidableEq T] (h : q.Inv) {caller : Option T} {m : Making C}
    (hmaking : q.making caller = some m) (t : Timer C) (log : List TimerEvent) :
    Inv { q with
      heap := Function.update q.heap m.addr (.live t)
      making := Function.update q.making caller none
      inFlight := m.addr :: q.inFlight
      log := log } := by
  have hraw := h.making_raw hmaking
  have hdead (t : Timer C) : q.heap m.addr ≠ .live t := fun ht => by simp [ht] at hraw
  have hold {c : Option T} {m₁ : Making C}
      (h₁ : Function.update q.making caller none c = some m₁) :
      q.making c = some m₁ ∧ c ≠ caller := by
    rcases update_eq_some h₁ with ⟨-, hm₁⟩ | ⟨hc, hm₁⟩
    · cases hm₁
    · exact ⟨hm₁, hc⟩
  have hnone (e : Entry) (he : e ∈ q.timers_) : e.timer ≠ m.addr := by
    obtain ⟨t', ht'⟩ := exists_live_of_mem h he
    intro heq
    exact hdead t' (heq ▸ ht')
  refine ⟨fun p => ?_, fun {c m₁} h₁ => ?_, fun h₁ h₂ heq => ?_, fun {e t'} he ht' => ?_,
    fun id => ?_, h.size_eq, h.flag⟩
  · have hplaces := h.places_eq p
    simp only [places, isLive_update, List.count_cons, beq_iff_eq] at hplaces ⊢
    by_cases heq : m.addr = p
    · subst heq
      simp only [hraw, Cell.isLive, if_true, Bool.false_eq_true, if_false] at hplaces ⊢
      omega
    · simp only [if_neg heq]
      omega
  · obtain ⟨hm₁, hc⟩ := hold h₁
    have hne : m₁.addr ≠ m.addr := fun heq => hc (h.making_inj hm₁ hmaking heq)
    exact (Function.update_of_ne hne ..).trans (h.making_raw hm₁)
  · exact h.making_inj (hold h₁).1 (hold h₂).1 heq
  · exact h.keyed he ((Function.update_of_ne (hnone e he) ..).symm.trans ht')
  · refine (h.active id).trans (exists_congr fun t' => ?_)
    by_cases heq : id.timer_ = m.addr
    · have hmem : ⟨t'.expiration_, id.timer_⟩ ∉ q.timers_ := fun hmem => hnone _ hmem heq
      simp [hmem]
    · simp only [Function.update_of_ne heq]

end TimerQueue

end TinyMuduo
