import TinyMuduo.Loop.Eventloop

/-!
# No lost wakeup

The test of `Eventloop::queueInLoop` whether to write to `wakeupfd_` comes after the section under
`m_mutex` and reads `callingPendingFunctors_`, which the loop sets and clears without the mutex. The
eventfd may be drained between the two halves of a call. A loop is watched together with the threads
that have done `emplace_back` and not the end of `queueInLoop`: when the loop is about to block in
`poll` and a functor is pending, the eventfd is readable or one of these threads is about to
make it so.

## Main definitions

* `Watched`, `Watched.step`: a loop and the threads in the middle of `queueInLoop`.
* `Watched.FromInside`: the calls of the thread of the loop come from a handler or a functor.
* `LoopPc.beforePoll`: the loop is about to block or blocked.

## Main results

* `Watched.pending_imp_wakeup`: no wakeup is lost.
-/

namespace TinyMuduo

/-- The thread of the loop is in a handler or a functor. -/
def LoopPc.inCallback {F : Type*} : LoopPc F → Bool
  | .events _ | .functor _ _ => true
  | _ => false

/-- The thread of the loop evaluates the condition of the loop next, or it is in `poll`. -/
def LoopPc.beforePoll {F : Type*} : LoopPc F → Bool
  | .looping | .condition | .polling => true
  | _ => false

/-- The thread of the loop swaps the functors before its next `poll`. -/
def LoopPc.beforeSwap {F : Type*} : LoopPc F → Bool
  | .events _ | .calling | .swapping => true
  | _ => false

/-- Before `poll` there is neither a callback nor a swap to come. -/
theorem LoopPc.eq_false_of_beforePoll {F : Type*} {pc : LoopPc F} (h : pc.beforePoll = true) :
    pc.beforeSwap = false ∧ pc.inCallback = false := by
  cases pc <;> simp_all [LoopPc.beforePoll, LoopPc.beforeSwap, LoopPc.inCallback]

/-- The thread of the loop is between the stores to `callingPendingFunctors_`. -/
def LoopPc.inBatch {F : Type*} : LoopPc F → Bool
  | .swapping | .functors _ | .functor _ _ => true
  | _ => false

/-- An event loop with the other threads that have emplaced a functor in `queueInLoop` and have not
reached the end of the call. -/
structure Watched (T F : Type*) where
  loop : Eventloop T F
  emplaced : T → Bool

namespace Watched

variable {T F : Type*} [DecidableEq T]

/-- The loop that the constructor makes. -/
def init : Watched T F :=
  ⟨Eventloop.init, fun _ => false⟩

/-- The threads in the middle of `queueInLoop` after a step. -/
def track : Eventloop.Action T F → (T → Bool) → T → Bool
  | .queueInLoop (some t) _, emplaced | .runInLoop (some t) _, emplaced =>
    Function.update emplaced t true
  | .notify (some t), emplaced => Function.update emplaced t false
  | _, emplaced => emplaced

/-- One step of some thread. -/
def step (w : Watched T F) (a : Eventloop.Action T F) : Option (Watched T F) :=
  (w.loop.step a).map fun e => ⟨e, track a w.emplaced⟩

/-- The thread of the loop calls `queueInLoop` from a handler or a functor. -/
def FromInside (w : Watched T F) : Eventloop.Action T F → Prop
  | .queueInLoop none _ => w.loop.pc.inCallback = true
  | _ => True

instance (w : Watched T F) : DecidablePred w.FromInside
  | .queueInLoop none _ => inferInstanceAs (Decidable (_ = true))
  | .queueInLoop (some _) _ => .isTrue trivial
  | .runInLoop _ _ | .quit _ | .notify _ | .poll _ | .handleRead | .loop => .isTrue trivial

omit [DecidableEq T] in
/-- What a pending functor waits for: a readable eventfd, another thread that makes it readable, a
swap before the next `poll`, or the end of a call of `queueInLoop` made by a callback. -/
def Announced (w : Watched T F) : Prop :=
  0 < w.loop.wakeupfd_ ∨ (∃ t, w.emplaced t = true) ∨ w.loop.pc.beforeSwap = true ∨
    w.loop.pc.inCallback = true ∧ w.loop.notifying none = true

/-- While functors run, `callingPendingFunctors_` is set, and a pending functor is announced. -/
structure Noticed (w : Watched T F) : Prop where
  calling : w.loop.pc.inBatch = true → w.loop.callingPendingFunctors_ = true
  announced : w.loop.pendingFunctions_ ≠ [] → w.Announced

variable {w w' : Watched T F}

omit [DecidableEq T] in
private theorem noticed_init : (init : Watched T F).Noticed where
  calling := by simp [init, Eventloop.init, LoopPc.inBatch]
  announced := by simp [init, Eventloop.init]

/-! ### What a step keeps -/

section Step

variable {e : Eventloop T F} {emplaced : T → Bool} {caller : Option T} {cb : F}

/-- The functor of another thread is announced by that thread, and the functor of a callback by the
rest of its call. -/
theorem noticed_queueInLoop (hw : w.Noticed) (hin : caller = none → w.loop.pc.inCallback = true)
    (h : w.loop.queueInLoop caller cb = some e) :
    Noticed ⟨e, track (.queueInLoop caller cb) w.emplaced⟩ := by
  obtain ⟨-, h⟩ := Option.ite_none_right_eq_some.mp h
  obtain rfl := Option.some.inj h
  refine ⟨hw.calling, fun _ => ?_⟩
  cases caller with
  | some t => exact .inr (.inl ⟨t, Function.update_self ..⟩)
  | none =>
    refine .inr (.inr (.inr ⟨hin rfl, ?_⟩))
    simp only [Function.update_self]

private theorem noticed_runInLoop (hw : w.Noticed) (h : w.loop.runInLoop caller cb = some e) :
    Noticed ⟨e, track (.runInLoop caller cb) w.emplaced⟩ := by
  cases caller with
  | some t => exact noticed_queueInLoop hw (by simp) h
  | none =>
    obtain ⟨-, h⟩ := Option.ite_none_right_eq_some.mp h
    obtain rfl := Option.some.inj h
    exact hw

/-- In the thread of the loop `quit` leaves no wakeup to do, but none was to be done before. -/
theorem noticed_quit (hw : w.Noticed) (h : w.loop.quit caller = some e) :
    Noticed ⟨e, w.emplaced⟩ := by
  obtain ⟨hmay, h⟩ := Option.ite_none_right_eq_some.mp h
  obtain rfl := Option.some.inj h
  refine ⟨hw.calling, fun hpending => ?_⟩
  have hidle : w.loop.notifying caller = false := by
    simp only [Eventloop.mayCall, Bool.and_eq_true, Bool.not_eq_true'] at hmay
    exact hmay.1
  rcases hw.announced hpending with h0 | ht | hswap | ⟨hin, hnone⟩
  · exact .inl h0
  · exact .inr (.inl ht)
  · exact .inr (.inr (.inl hswap))
  · have hne : none ≠ caller := by
      rintro rfl
      exact absurd (hidle.symm.trans hnone) (by simp)
    exact .inr (.inr (.inr ⟨hin, (Function.update_of_ne hne ..).trans hnone⟩))

/-- The end of a call writes to the eventfd, except for a handler, after which the swap follows. -/
theorem noticed_notify (hw : w.Noticed) (h : w.loop.notify caller = some e) :
    Noticed ⟨e, track (.notify caller : Eventloop.Action T F) w.emplaced⟩ := by
  obtain ⟨-, h⟩ := Option.ite_none_right_eq_some.mp h
  obtain rfl := Option.some.inj h
  split_ifs with hwake
  · exact ⟨hw.calling, fun _ => .inl (Nat.succ_pos _)⟩
  · obtain ⟨hnone, hflag⟩ : caller = none ∧ w.loop.callingPendingFunctors_ = false := by
      simpa [isInLoopThread, Option.isNone_iff_eq_none] using hwake
    subst hnone
    refine ⟨hw.calling, fun hpending => ?_⟩
    rcases hw.announced hpending with h0 | ht | hswap | ⟨hin, -⟩
    · exact .inl h0
    · exact .inr (.inl ht)
    · exact .inr (.inr (.inl hswap))
    · -- in a functor the flag is set, so the callback is a handler
      have hbatch : w.loop.pc.inBatch = false := by
        by_contra hbatch
        rw [hw.calling (by simpa using hbatch)] at hflag
        exact absurd hflag (by simp)
      refine .inr (.inr (.inl ?_))
      cases hpc : w.loop.pc <;>
        simp_all [LoopPc.inCallback, LoopPc.inBatch, LoopPc.beforeSwap]

omit [DecidableEq T] in
private theorem noticed_poll {wakeupActive : Bool} (h : w.loop.poll wakeupActive = some e) :
    Noticed ⟨e, emplaced⟩ := by
  cases hpc : w.loop.pc <;> simp only [Eventloop.poll, hpc, reduceCtorEq] at h
  obtain ⟨-, h⟩ := Option.ite_none_left_eq_some.mp h
  obtain rfl := Option.some.inj h
  exact ⟨by simp [LoopPc.inBatch], fun _ => .inr (.inr (.inl rfl))⟩

omit [DecidableEq T] in
/-- The eventfd is drained where the swap is still to come. -/
theorem noticed_handleRead (h : w.loop.handleRead = some e) : Noticed ⟨e, emplaced⟩ := by
  unfold Eventloop.handleRead at h
  split at h
  case h_1 =>
    obtain ⟨-, h⟩ := Option.ite_none_left_eq_some.mp h
    obtain rfl := Option.some.inj h
    exact ⟨by simp [LoopPc.inBatch], fun _ => .inr (.inr (.inl rfl))⟩
  case h_2 => exact absurd h (by simp)

omit [DecidableEq T] in
private theorem calling_loop (h : w.loop.loop = some e) (hw : w.Noticed)
    (hbatch : e.pc.inBatch = true) : e.callingPendingFunctors_ = true := by
  have hcalling := hw.calling
  cases hpc : w.loop.pc with
  | functors rest => cases rest <;> grind [Eventloop.loop, LoopPc.inBatch]
  | _ => grind [Eventloop.loop, LoopPc.inBatch]

omit [DecidableEq T] in
/-- The thread of the loop leaves the places before the swap by the swap, which takes every pending
functor, and a callback after its calls. -/
theorem pending_loop (h : w.loop.loop = some e) :
    e.pendingFunctions_ = [] ∨
      e.pendingFunctions_ = w.loop.pendingFunctions_ ∧ e.wakeupfd_ = w.loop.wakeupfd_ ∧
        (w.loop.pc.beforeSwap = true → e.pc.beforeSwap = true) ∧
        (w.loop.pc.inCallback = true → w.loop.notifying none = false) := by
  cases hpc : w.loop.pc with
  | functors rest =>
    cases rest <;> grind [Eventloop.loop, LoopPc.beforeSwap, LoopPc.inCallback]
  | _ => grind [Eventloop.loop, LoopPc.beforeSwap, LoopPc.inCallback]

omit [DecidableEq T] in
private theorem noticed_loop (hw : w.Noticed) (h : w.loop.loop = some e) :
    Noticed ⟨e, w.emplaced⟩ := by
  refine ⟨calling_loop h hw, fun hpending => ?_⟩
  rcases pending_loop h with hnil | ⟨heq, hfd, hswap, hin⟩
  · exact absurd hnil hpending
  · rw [heq] at hpending
    rcases hw.announced hpending with h0 | ht | hs | ⟨hcb, hnone⟩
    · exact .inl (hfd ▸ h0)
    · exact .inr (.inl ht)
    · exact .inr (.inr (.inl (hswap hs)))
    · exact absurd ((hin hcb).symm.trans hnone) (by simp)

end Step

theorem Noticed.step (hw : w.Noticed) {a : Eventloop.Action T F} (hin : w.FromInside a)
    (h : w.step a = some w') : w'.Noticed := by
  obtain ⟨e, he, rfl⟩ := Option.map_eq_some_iff.mp h
  cases a with
  | queueInLoop caller cb =>
    refine noticed_queueInLoop hw ?_ he
    rintro rfl
    exact hin
  | runInLoop caller cb => exact noticed_runInLoop hw he
  | quit caller => exact noticed_quit hw he
  | notify caller => exact noticed_notify hw he
  | poll wakeupActive => exact noticed_poll he
  | handleRead => exact noticed_handleRead he
  | loop => exact noticed_loop hw he

/-! ### Runs -/

open Transition

/-- A watched run is a run of the loop. -/
theorem reaches_loop (h : Reaches (ofStep step) FromInside (init : Watched T F) w) :
    Reaches (ofStep Eventloop.step) anyLabel Eventloop.init w.loop :=
  h.map loop fun u a v _ _ hstep => by
    obtain ⟨e, he, rfl⟩ := Option.map_eq_some_iff.mp hstep
    exact (Reaches.refl _).snoc trivial he

/-- No wakeup is lost: while a functor is pending and the loop is about to block in `poll` or
blocked there, the eventfd is readable or another thread is between its `emplace_back` and its
`wakeup`. -/
theorem pending_imp_wakeup (h : Reaches (ofStep step) FromInside (init : Watched T F) w)
    (hpc : w.loop.pc.beforePoll = true) (hpending : w.loop.pendingFunctions_ ≠ []) :
    0 < w.loop.wakeupfd_ ∨ ∃ t, w.emplaced t = true := by
  have hw : w.Noticed := h.invariant noticed_init fun _ _ _ hu hin hstep => hu.step hin hstep
  obtain ⟨hnswap, hnin⟩ := LoopPc.eq_false_of_beforePoll hpc
  rcases hw.announced hpending with h0 | ht | hswap | ⟨hin, -⟩
  · exact .inl h0
  · exact .inr ht
  · exact absurd (hnswap.symm.trans hswap) (by simp)
  · exact absurd (hnin.symm.trans hin) (by simp)

/-- A functor 7 of another thread, a functor 8 queued by the handler that runs next and a functor 9
queued by the functor 7: the loop comes back to `poll` with 9 pending. -/
theorem pending_imp_wakeup_nine :
    ∃ w : Watched Unit ℕ, w.loop.pendingFunctions_ = [9] ∧
      (0 < w.loop.wakeupfd_ ∨ ∃ t, w.emplaced t = true) := by
  obtain ⟨w, hw, hpc, hpending⟩ := Reaches.exists_of_run (C := FromInside) (s := init)
    (P := fun w : Watched Unit ℕ => w.loop.pc.beforePoll = true ∧ w.loop.pendingFunctions_ = [9])
    step [.loop, .loop, .loop, .queueInLoop (some ()) 7, .notify (some ()), .poll true,
      .handleRead, .queueInLoop none 8, .notify none, .loop, .loop, .loop, .loop,
      .queueInLoop none 9, .notify none, .loop, .loop, .loop, .loop, .loop] (by decide +kernel)
  exact ⟨w, hpending, pending_imp_wakeup hw hpc (by rw [hpending]; exact List.cons_ne_nil _ _)⟩

end Watched

end TinyMuduo
