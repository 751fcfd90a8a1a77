import TinyMuduo.Library.Potential
import TinyMuduo.Loop.EventLoopThread

/-!
# The life of a loop and the end of its thread

What `EventLoopThread::startloop` returns points to a local variable of `threadFunc`. Where nobody
but the destructor asks the loop to quit, this variable exists as long as the destructor has not
made its request: the pointer is valid, and the destructor finds it in `loop_`.

The destructor then joins the thread. A request that stands (`EventLoopThread.quit_stands`) brings
the thread to its end: the loop is not caught in `poll`, since the eventfd is readable or the
destructor is about to write to it; the functors that are still queued run at most once more, in one
batch; and as long as the destructor waits, some thread can go on without a new call to the loop and
without the timeout of `poll`.

## Main definitions

* `EventLoopThread.OnlyDestructorQuits`: nobody else calls `Eventloop::quit`.
* `LoopPc.stepsLeft`, `EventLoopThread.stepsLeft`: how many steps the thread of the loop still
  takes, when no more functors are queued.
* `EventLoopThread.Action.ofThread`, `EventLoopThread.Action.queues`,
  `EventLoopThread.Action.GoesOn`: the steps of that thread, those that queue a functor, and those
  that are neither a new call nor a timeout.

## Main results

* `EventLoopThread.usable_of_reaches`: the life of the loop.
* `EventLoopThread.join_returns`: the end of its thread.
-/

namespace TinyMuduo

/-- The steps of `Eventloop::loop` up to its return once `quit_` is set, with so many functors in
`pendingFunctions_`: two for each functor of the batch that is formed last. -/
def LoopPc.stepsLeft {F : Type*} (pending : ℕ) : LoopPc F → ℕ
  | .outside | .looping => 0
  | .condition => 1
  | .functors rest => 2 * rest.length + 2
  | .functor _ rest => 2 * rest.length + 3
  | .swapping => 2 * pending + 3
  | .calling => 2 * pending + 4
  | .events false => 2 * pending + 5
  | .events true => 2 * pending + 6
  | .polling => 2 * pending + 7

namespace Eventloop

/-- The call queues a functor: `runInLoop` calls it at once on the thread of the loop. -/
def Action.queues {T F : Type*} : Action T F → Bool
  | .queueInLoop _ _ => true
  | .runInLoop caller _ => !isInLoopThread caller
  | _ => false

variable {T F : Type*} [DecidableEq T] (e : Eventloop T F)

/-- The loop is not caught in `poll`: its eventfd is readable, or a given thread is about to make it
so. -/
def Awake (t : T) : Prop :=
  e.pc = .polling → e.notifying (some t) = true ∨ 0 < e.wakeupfd_

variable {e} {e' : Eventloop T F} {t : T}

omit [DecidableEq T] in
/-- Once `quit_` is set, no step of the loop leads to `poll`, and each one brings it nearer to its
end. -/
theorem stepsLeft_loop (hquit : e.quit_ = true) (hreset : e.pc.hasReset = true)
    (h : e.loop = some e') :
    e'.pc ≠ .polling ∧
      e'.pc.stepsLeft e'.pendingFunctions_.length + 1 =
        e.pc.stepsLeft e.pendingFunctions_.length := by
  cases hpc : e.pc with
  | functors rest =>
    cases rest with
    | nil =>
      simp only [loop, hpc, Option.some.injEq] at h
      subst h
      simp [LoopPc.stepsLeft]
    | cons cb rest =>
      simp only [loop, hpc, Option.some.injEq] at h
      subst h
      simp [LoopPc.stepsLeft]
      omega
  | events wakeupActive => cases wakeupActive <;> grind [loop, LoopPc.stepsLeft]
  | _ => grind [loop, LoopPc.stepsLeft, LoopPc.hasReset]

/-- The calls of the threads leave the loop where it is; one that queues a functor adds its two
steps if the batch is still to be formed. -/
theorem stepsLeft_call {a : Action T F} (h : e.step a = some e')
    (ha : a ≠ .loop ∧ a ≠ .handleRead ∧ ∀ wakeupActive, a ≠ .poll wakeupActive) :
    e'.pc = e.pc ∧ e'.pc.stepsLeft e'.pendingFunctions_.length ≤
      e.pc.stepsLeft e.pendingFunctions_.length +
        if a.queues then 2 else 0 := by
  have hpush (pc : LoopPc F) (n : ℕ) : pc.stepsLeft (n + 1) ≤ pc.stepsLeft n + 2 := by
    cases pc with
    | events wakeupActive => cases wakeupActive <;> simp [LoopPc.stepsLeft] <;> omega
    | _ => simp [LoopPc.stepsLeft] <;> omega
  cases a with
  | queueInLoop caller cb =>
    obtain ⟨-, h⟩ := Option.ite_none_right_eq_some.mp h
    obtain rfl := Option.some.inj h
    exact ⟨rfl, by simpa [Action.queues] using hpush e.pc e.pendingFunctions_.length⟩
  | runInLoop caller cb =>
    simp only [step, runInLoop] at h
    split_ifs at h with hcaller hmay
    · obtain rfl := Option.some.inj h
      exact ⟨rfl, Nat.le_add_right _ _⟩
    · obtain ⟨-, h⟩ := Option.ite_none_right_eq_some.mp h
      obtain rfl := Option.some.inj h
      exact ⟨rfl, by simpa [Action.queues, hcaller] using hpush e.pc e.pendingFunctions_.length⟩
  | quit caller =>
    obtain ⟨-, h⟩ := Option.ite_none_right_eq_some.mp h
    obtain rfl := Option.some.inj h
    exact ⟨rfl, le_rfl⟩
  | notify caller =>
    obtain ⟨-, h⟩ := Option.ite_none_right_eq_some.mp h
    obtain rfl := Option.some.inj h
    constructor <;> split_ifs <;> simp [wakeup]
  | poll wakeupActive => exact absurd rfl (ha.2.2 wakeupActive)
  | handleRead => exact absurd rfl ha.2.1
  | loop => exact absurd rfl ha.1

omit [DecidableEq T] in
private theorem stepsLeft_poll {wakeupActive : Bool} (h : e.poll wakeupActive = some e') :
    e'.pc ≠ .polling ∧ e'.pc.stepsLeft e'.pendingFunctions_.length + 1 ≤
      e.pc.stepsLeft e.pendingFunctions_.length := by
  cases hpc : e.pc <;> simp only [poll, hpc, reduceCtorEq] at h
  obtain ⟨-, h⟩ := Option.ite_none_left_eq_some.mp h
  obtain rfl := Option.some.inj h
  cases wakeupActive <;> simp [LoopPc.stepsLeft]

omit [DecidableEq T] in
private theorem stepsLeft_handleRead (h : e.handleRead = some e') :
    e'.pc ≠ .polling ∧ e'.pc.stepsLeft e'.pendingFunctions_.length + 1 ≤
      e.pc.stepsLeft e.pendingFunctions_.length := by
  unfold handleRead at h
  split at h
  case h_1 hpc =>
    obtain ⟨-, h⟩ := Option.ite_none_left_eq_some.mp h
    obtain rfl := Option.some.inj h
    simp [hpc, LoopPc.stepsLeft]
  case h_2 => exact absurd h (by simp)

omit [DecidableEq T] in
/-- A step that leaves the loop in `poll` keeps it awake if the given thread is still about to write
to the eventfd, or has done so. -/
theorem Awake.of_pc_eq (he : e.Awake t) (hpc : e'.pc = e.pc) (hfd : e.wakeupfd_ ≤ e'.wakeupfd_)
    (hkeep : e.notifying (some t) = true → e'.notifying (some t) = true ∨ 0 < e'.wakeupfd_) :
    e'.Awake t := by
  intro hpoll
  rcases he (hpc ▸ hpoll) with hnotifying | hpos
  · exact hkeep hnotifying
  · exact .inr (Nat.lt_of_lt_of_le hpos hfd)

private theorem awake_queueInLoop (he : e.Awake t) {caller : Option T} {cb : F}
    (h : e.queueInLoop caller cb = some e') : e'.Awake t := by
  obtain ⟨-, h⟩ := Option.ite_none_right_eq_some.mp h
  obtain rfl := Option.some.inj h
  refine he.of_pc_eq rfl le_rfl fun hnotifying => .inl ?_
  simp [Function.update_apply, hnotifying]

/-- While the loop is in `poll`, its eventfd is written by the end of a call and never read. -/
theorem Awake.step (he : e.Awake t) (hquit : e.quit_ = true) {a : Action T F}
    (h : e.step a = some e') : e'.Awake t := by
  cases a with
  | queueInLoop caller cb => exact awake_queueInLoop he h
  | runInLoop caller cb =>
    simp only [Eventloop.step, runInLoop] at h
    split_ifs at h with hcaller hmay
    · obtain rfl := Option.some.inj h
      exact he
    · exact awake_queueInLoop he h
  | quit caller =>
    obtain ⟨-, h⟩ := Option.ite_none_right_eq_some.mp h
    obtain rfl := Option.some.inj h
    refine he.of_pc_eq rfl le_rfl fun hnotifying => .inl ?_
    by_cases hcaller : some t = caller
    · subst hcaller
      simp [isInLoopThread]
    · simp [hcaller, hnotifying]
  | notify caller =>
    obtain ⟨-, h⟩ := Option.ite_none_right_eq_some.mp h
    obtain rfl := Option.some.inj h
    split_ifs with hwake
    · exact fun _ => .inr (Nat.succ_pos _)
    · refine he.of_pc_eq rfl le_rfl fun hnotifying => .inl ?_
      have hcaller : some t ≠ caller := by
        rintro rfl
        simp [isInLoopThread] at hwake
      simp [hcaller, hnotifying]
  | poll wakeupActive => exact fun hpc => absurd hpc (stepsLeft_poll h).1
  | handleRead => exact fun hpc => absurd hpc (stepsLeft_handleRead h).1
  | loop => grind [Eventloop.step, loop, Awake]

omit [DecidableEq T] in
/-- The loop does not set `quit_`, and it does not end while `quit_` is unset. -/
theorem running_loop (hquit : e.quit_ = false) (h : e.loop = some e') :
    e'.quit_ = false ∧ e'.pc ≠ .outside := by
  cases hpc : e.pc with
  | functors rest => cases rest <;> grind [loop]
  | events wakeupActive => cases wakeupActive <;> grind [loop]
  | _ => grind [loop]

/-- Only `quit` sets `quit_`. -/
theorem quit_of_step {a : Action T F} (h : e.step a = some e')
    (ha : a ≠ .loop ∧ ∀ caller, a ≠ .quit caller) : e'.quit_ = e.quit_ := by
  cases a with
  | quit caller => exact absurd rfl (ha.2 caller)
  | loop => exact absurd rfl ha.1
  | queueInLoop caller cb => grind [Eventloop.step, queueInLoop]
  | runInLoop caller cb => grind [Eventloop.step, runInLoop, queueInLoop]
  | notify caller => grind [Eventloop.step, notify, wakeup]
  | poll wakeupActive => grind [Eventloop.step, poll]
  | handleRead => grind [Eventloop.step, handleRead]

end Eventloop

namespace EventLoopThread

variable {T F : Type*} (x : EventLoopThread T F)

/-- The steps of the thread of the loop up to the end of `threadFunc` once the request of the
destructor stands, when no more functors are queued. -/
def stepsLeft : ℕ :=
  match x.threadPc with
  | .looping => x.loop.pc.stepsLeft x.loop.pendingFunctions_.length + 1
  | .clearing => 1
  | _ => 0

/-- Nobody but the destructor calls `Eventloop::quit`. -/
def OnlyDestructorQuits (_ : EventLoopThread T F) : Action T F → Prop
  | .use (.quit _) => False
  | _ => True

instance : DecidablePred x.OnlyDestructorQuits
  | .use (.quit _) => .isFalse id
  | .use (.queueInLoop ..) | .use (.runInLoop ..) | .use (.notify _) | .use (.poll _)
  | .use .handleRead | .use .loop | .startloop | .published | .threadFunc | .destroy =>
    .isTrue trivial

/-- A step of the thread of the loop, other than its calls to the loop. -/
def Action.ofThread : Action T F → Bool
  | .threadFunc | .use (.poll _) | .use .handleRead => true
  | _ => false

/-- A call that queues a functor. -/
def Action.queues : Action T F → Bool
  | .use a => a.queues
  | _ => false

/-- Where the two threads can stand together, and that `quit_` is set by nobody else. -/
structure Alive (x : EventLoopThread T F) : Prop where
  published : x.loop_ = true ↔
    x.threadPc = .published ∨ x.threadPc = .looping ∨ x.threadPc = .clearing
  started : x.ownerPc = .idle ∨ x.ownerPc = .starting ∨ x.loop_ = true ∨ x.ownerPc.hasQuit = true
  running : x.ownerPc.hasQuit = false →
    x.loop.quit_ = false ∧ x.threadPc ≠ .clearing ∧ x.threadPc ≠ .finished
  present : x.ownerPc ≠ .gone
  joined : x.ownerPc = .joined → x.threadPc = .finished

private theorem alive_init : (init : EventLoopThread T F).Alive := by
  constructor <;> simp [init, Eventloop.init]

variable {x} {x' : EventLoopThread T F}

theorem Alive.threadFunc (hx : x.Alive) (h : x.threadFunc = some x') : x'.Alive := by
  have hpublished := hx.published
  unfold EventLoopThread.threadFunc at h
  cases hthread : x.threadPc <;> simp only [hthread, reduceCtorEq] at h
  case constructing =>
    obtain rfl := Option.some.inj h
    exact ⟨by simpa [hthread] using hpublished, hx.started,
      fun hq => ⟨(hx.running hq).1, by simp, by simp⟩, hx.present,
      fun hj => absurd (hx.joined hj) (by simp [hthread])⟩
  case callback =>
    obtain ⟨-, h⟩ := Option.ite_none_left_eq_some.mp h
    obtain rfl := Option.some.inj h
    exact ⟨by simp, .inr (.inr (.inl rfl)), fun hq => ⟨(hx.running hq).1, by simp, by simp⟩,
      hx.present, fun hj => absurd (hx.joined hj) (by simp [hthread])⟩
  case published | looping =>
    obtain ⟨e, he, rfl⟩ := Option.map_eq_some_iff.mp h
    have hloop : x.loop_ = true := hpublished.mpr (by simp [hthread])
    refine ⟨?_, .inr (.inr (.inl hloop)), fun hq => ?_, hx.present,
      fun hj => absurd (hx.joined hj) (by simp [hthread])⟩
    · cases hpc : e.pc <;> simp [hloop]
    · obtain ⟨hquit, hpc⟩ := Eventloop.running_loop (hx.running hq).1 he
      refine ⟨hquit, ?_⟩
      cases hcase : e.pc <;> simp_all
  case clearing =>
    obtain rfl := Option.some.inj h
    have hquit : x.ownerPc.hasQuit = true := by
      by_contra hquit
      exact (hx.running (by simpa using hquit)).2.1 hthread
    exact ⟨by simp, .inr (.inr (.inr hquit)), fun hq => absurd (hq.symm.trans hquit) (by simp),
      hx.present, fun _ => rfl⟩

theorem Alive.startloop (hx : x.Alive) (h : x.startloop = some x') : x'.Alive := by
  have hpublished := hx.published
  unfold EventLoopThread.startloop at h
  split at h
  case h_1 howner hthread =>
    obtain rfl := Option.some.inj h
    have hquit := (hx.running (by simp [howner, OwnerPc.hasQuit])).1
    exact ⟨by simpa [hthread] using hpublished, .inr (.inl rfl),
      fun _ => ⟨hquit, by simp, by simp⟩, by simp, by simp⟩
  case h_2 => exact absurd h (by simp)

theorem Alive.publish (hx : x.Alive) (h : x.published = some x') : x'.Alive := by
  unfold EventLoopThread.published at h
  split at h
  case h_1 howner =>
    obtain ⟨hloop, h⟩ := Option.ite_none_right_eq_some.mp h
    obtain rfl := Option.some.inj h
    exact ⟨hx.published, .inr (.inr (.inl hloop)),
      fun _ => hx.running (by simp [howner, OwnerPc.hasQuit]), by simp, by simp⟩
  case h_2 => exact absurd h (by simp)

variable [DecidableEq T] {owner : T}

/-- The destructor finds the loop where `threadFunc` has published it. -/
theorem Alive.destroy (hx : x.Alive) (h : x.destroy owner = some x') : x'.Alive := by
  have hstarted := hx.started
  unfold EventLoopThread.destroy at h
  cases howner : x.ownerPc <;> simp only [howner, reduceCtorEq] at h hstarted
  case started =>
    obtain rfl := Option.some.inj h
    have hloop : x.loop_ = true := by simpa [OwnerPc.hasQuit] using hstarted
    exact ⟨hx.published, .inr (.inr (.inl hloop)),
      fun _ => hx.running (by simp [howner, OwnerPc.hasQuit]), by simp, by simp⟩
  case exiting =>
    obtain rfl := Option.some.inj h
    have hloop : x.loop_ = true := by simpa [OwnerPc.hasQuit] using hstarted
    exact ⟨hx.published, .inr (.inr (.inl hloop)),
      fun _ => hx.running (by simp [howner, OwnerPc.hasQuit]), by simp [hloop], by simp [hloop]⟩
  case quitting =>
    obtain ⟨-, h⟩ := Option.ite_none_right_eq_some.mp h
    obtain ⟨e, he, rfl⟩ := Option.map_eq_some_iff.mp h
    exact ⟨hx.published, .inr (.inr (.inr rfl)), by simp [OwnerPc.hasQuit], by simp, by simp⟩
  case joining =>
    obtain ⟨hwait, h⟩ := Option.ite_none_left_eq_some.mp h
    obtain rfl := Option.some.inj h
    have hfinished : x.threadPc = .finished := by
      by_contra hne
      simp [hne] at hwait
    exact ⟨hx.published, .inr (.inr (.inr rfl)), by simp [OwnerPc.hasQuit], by simp,
      fun _ => hfinished⟩

theorem Alive.step (hx : x.Alive) {a : Action T F} (hguard : x.OnlyDestructorQuits a)
    (h : x.step owner a = some x') : x'.Alive := by
  cases a with
  | startloop => exact hx.startloop h
  | published => exact hx.publish h
  | threadFunc => exact hx.threadFunc h
  | destroy => exact hx.destroy h
  | use a =>
    obtain ⟨ha, e, he, rfl⟩ := use_eq_some h
    have hne : ∀ caller, a ≠ .quit caller := by
      rintro caller rfl
      exact hguard
    have hquit := Eventloop.quit_of_step he ⟨ha, hne⟩
    exact ⟨hx.published, hx.started, fun hq => ⟨hquit.trans (hx.running hq).1, (hx.running hq).2⟩,
      hx.present, hx.joined⟩

/-! ### The end of the thread -/

omit [DecidableEq T] in
private theorem stepsLeft_threadFunc (hx : x.Stands) (hquit : x.ownerPc.hasQuit = true)
    (h : x.threadFunc = some x') : x'.stepsLeft + 1 ≤ x.stepsLeft := by
  have hreset := hx.reset hquit
  unfold EventLoopThread.threadFunc at h
  cases hthread : x.threadPc <;>
    simp only [hthread, hasReset, reduceCtorEq, Bool.false_eq_true] at h hreset
  case looping =>
    obtain ⟨e, he, rfl⟩ := Option.map_eq_some_iff.mp h
    have hsteps := (Eventloop.stepsLeft_loop (hx.quit hquit) hreset he).2
    cases hpc : e.pc with
    | outside =>
      rw [hpc, LoopPc.stepsLeft] at hsteps
      simp only [stepsLeft, hthread, if_true]
      omega
    | _ =>
      simp only [stepsLeft, hthread, Bool.false_eq_true, if_false]
      omega
  case clearing =>
    obtain rfl := Option.some.inj h
    simp [stepsLeft, hthread]

/-- What holds of the end of the thread: the request of the destructor stands, the loop has not
begun or is over where the thread is not in it, and no `poll` keeps the destructor waiting. -/
structure Ends (x : EventLoopThread T F) (owner : T) : Prop where
  stands : x.Stands
  outside : x.threadPc ≠ .looping → x.loop.pc = .outside
  awake : x.ownerPc.hasQuit = true → x.loop.Awake owner

omit [DecidableEq T] in
theorem ends_init (owner : T) : (init : EventLoopThread T F).Ends owner :=
  ⟨stands_init, fun _ => rfl, fun _ => by simp [Eventloop.Awake, init, Eventloop.init]⟩

omit [DecidableEq T] in
private theorem outside_threadFunc (hx : x.threadPc ≠ .looping → x.loop.pc = .outside)
    (h : x.threadFunc = some x') : x'.threadPc ≠ .looping → x'.loop.pc = .outside := by
  unfold EventLoopThread.threadFunc at h
  cases hthread : x.threadPc <;> simp only [hthread, reduceCtorEq] at h hx
  case constructing | clearing =>
    obtain rfl := Option.some.inj h
    exact fun _ => hx (by simp)
  case callback =>
    obtain ⟨-, h⟩ := Option.ite_none_left_eq_some.mp h
    obtain rfl := Option.some.inj h
    exact fun _ => hx (by simp)
  case published | looping =>
    obtain ⟨e, he, rfl⟩ := Option.map_eq_some_iff.mp h
    cases e.pc <;> simp

theorem Ends.threadFunc (hx : x.Ends owner) (h : x.threadFunc = some x') : x'.Ends owner := by
  obtain ⟨howner, hloop⟩ := threadFunc_cases h
  refine ⟨hx.stands.threadFunc h, outside_threadFunc hx.outside h, fun hquit => ?_⟩
  rw [howner] at hquit
  rcases hloop with ⟨hloop, -⟩ | ⟨hloop, -⟩
  · rw [hloop]
    exact hx.awake hquit
  · exact (hx.awake hquit).step (hx.stands.quit hquit) (a := .loop) hloop

theorem Ends.destroy (hx : x.Ends owner) (hguard : x.ownerPc = .quitting → x.hasReset = true)
    (h : x.destroy owner = some x') : x'.Ends owner := by
  have hstands := hx.stands.destroy hguard h
  rcases destroy_cases h with ⟨howner, hthread, hloop⟩ | ⟨howner, hthread, hquit⟩
  · refine ⟨hstands, ?_, ?_⟩
    · rw [hthread, hloop]
      exact hx.outside
    · rw [howner, hloop]
      exact hx.awake
  · obtain ⟨-, he⟩ := Option.ite_none_right_eq_some.mp hquit
    have hloop := Option.some.inj he
    refine ⟨hstands, ?_, fun _ _ => .inl ?_⟩
    · rw [hthread, ← hloop]
      exact hx.outside
    · rw [← hloop]
      simp [isInLoopThread]

theorem Ends.use (hx : x.Ends owner) {a : Eventloop.Action T F} (h : x.use owner a = some x') :
    x'.Ends owner := by
  have hstands := hx.stands.use h
  obtain ⟨ha, e, he, rfl⟩ := use_eq_some h
  refine ⟨hstands, fun hthread => ?_, fun hquit => (hx.awake hquit).step (hx.stands.quit hquit) he⟩
  have hpc := hx.outside hthread
  cases a with
  | poll wakeupActive => simp [Eventloop.step, Eventloop.poll, hpc] at he
  | handleRead => simp [Eventloop.step, Eventloop.handleRead, hpc] at he
  | loop => exact absurd rfl ha
  | _ => exact (Eventloop.stepsLeft_call he (by simp)).1.trans hpc

omit [DecidableEq T] in
/-- The two halves of `startloop` are before the destructor, and the loop does not begin in them. -/
theorem owner_startloop (h : x.startloop = some x' ∨ x.published = some x') :
    x.ownerPc.hasQuit = false ∧ x'.ownerPc.hasQuit = false ∧ x'.loop = x.loop ∧
      (x'.threadPc ≠ .looping → x.threadPc ≠ .looping) := by
  rcases h with h | h
  · unfold EventLoopThread.startloop at h
    split at h
    case h_1 howner hthread =>
      obtain rfl := Option.some.inj h
      simp [howner, hthread, OwnerPc.hasQuit]
    case h_2 => exact absurd h (by simp)
  · unfold EventLoopThread.published at h
    split at h
    case h_1 howner =>
      obtain ⟨-, h⟩ := Option.ite_none_right_eq_some.mp h
      obtain rfl := Option.some.inj h
      simp [howner, OwnerPc.hasQuit]
    case h_2 => exact absurd h (by simp)

omit [DecidableEq T] in
theorem Ends.startloop (hx : x.Ends owner) (h : x.startloop = some x' ∨ x.published = some x') :
    x'.Ends owner := by
  obtain ⟨-, hquit, hloop, hthread⟩ := owner_startloop h
  exact ⟨stands_of_hasQuit_eq_false hquit, fun hne => hloop ▸ hx.outside (hthread hne),
    fun hq => absurd (hquit.symm.trans hq) (by simp)⟩

theorem Ends.step (hx : x.Ends owner) {a : Action T F} (hguard : x.QuitAfterReset a)
    (h : x.step owner a = some x') : x'.Ends owner := by
  cases a with
  | startloop => exact hx.startloop (.inl h)
  | published => exact hx.startloop (.inr h)
  | threadFunc => exact hx.threadFunc h
  | destroy => exact hx.destroy hguard h
  | use a => exact hx.use h

theorem Ends.stepsLeft_use (hx : x.Ends owner) {a : Eventloop.Action T F}
    (h : x.use owner a = some x') :
    x'.stepsLeft + (if Action.ofThread (.use a) then 1 else 0) ≤
      x.stepsLeft + if Action.queues (.use a) then 2 else 0 := by
  obtain ⟨ha, e, he, rfl⟩ := use_eq_some h
  -- a call adds to the pending functors, wherever the thread is
  have hcall {n : ℕ} (hle : e.pc.stepsLeft e.pendingFunctions_.length ≤
      x.loop.pc.stepsLeft x.loop.pendingFunctions_.length + n) :
      stepsLeft { x with loop := e } ≤ x.stepsLeft + n := by
    cases hthread : x.threadPc <;> simp only [stepsLeft, hthread] <;> omega
  -- the others are steps of the thread in the loop
  have hthread (hne : x.loop.pc ≠ .outside) (hle : e.pc.stepsLeft e.pendingFunctions_.length + 1 ≤
      x.loop.pc.stepsLeft x.loop.pendingFunctions_.length) :
      stepsLeft { x with loop := e } + 1 ≤ x.stepsLeft := by
    have hlooping : x.threadPc = .looping := by
      by_contra hthread
      exact hne (hx.outside hthread)
    simp only [stepsLeft, hlooping]
    omega
  cases a with
  | queueInLoop caller cb => exact hcall (Eventloop.stepsLeft_call he (by simp)).2
  | runInLoop caller cb => exact hcall (Eventloop.stepsLeft_call he (by simp)).2
  | quit caller => exact hcall (Eventloop.stepsLeft_call he (by simp)).2
  | notify caller => exact hcall (Eventloop.stepsLeft_call he (by simp)).2
  | poll wakeupActive =>
    refine hthread (fun hpc => ?_) (Eventloop.stepsLeft_poll he).2
    simp [Eventloop.step, Eventloop.poll, hpc] at he
  | handleRead =>
    refine hthread (fun hpc => ?_) (Eventloop.stepsLeft_handleRead he).2
    simp [Eventloop.step, Eventloop.handleRead, hpc] at he
  | loop => exact absurd rfl ha

/-- Every step of the thread of the loop lowers the number of those left; only a call that queues a
functor raises it, by two. -/
theorem Ends.stepsLeft_step (hx : x.Ends owner) (hquit : x.ownerPc.hasQuit = true)
    {a : Action T F} (h : x.step owner a = some x') :
    x'.ownerPc.hasQuit = true ∧
      x'.stepsLeft + (if a.ofThread then 1 else 0) ≤ x.stepsLeft + if a.queues then 2 else 0 := by
  cases a with
  | startloop => exact absurd ((owner_startloop (.inl h)).1.symm.trans hquit) (by simp)
  | published => exact absurd ((owner_startloop (.inr h)).1.symm.trans hquit) (by simp)
  | threadFunc =>
    exact ⟨(threadFunc_cases h).1 ▸ hquit, stepsLeft_threadFunc hx.stands hquit h⟩
  | destroy =>
    rcases destroy_cases h with ⟨howner, hthread, hloop⟩ | ⟨howner, -, -⟩
    · refine ⟨howner.trans hquit, ?_⟩
      simp [stepsLeft, hthread, hloop, Action.ofThread]
    · simp [howner, OwnerPc.hasQuit] at hquit
  | use a =>
    refine ⟨?_, hx.stepsLeft_use h⟩
    obtain ⟨-, e, -, rfl⟩ := use_eq_some h
    exact hquit

open Transition

/-- Where nobody but the destructor asks the loop to quit: from the return of `startloop` until the
destructor has made its request, the loop exists, `loop_` points to it, and it has not been asked to
quit; the destructor finds it, and when the join has returned, the loop is gone. -/
theorem usable_of_reaches (h : Reaches (ofStep (step owner)) OnlyDestructorQuits init x) :
    (x.ownerPc = .started ∨ x.ownerPc = .exiting ∨ x.ownerPc = .quitting →
      x.hasLoop = true ∧ x.loop_ = true ∧ x.loop.quit_ = false) ∧
    x.ownerPc ≠ .gone ∧
    (x.ownerPc = .joined → x.hasLoop = false ∧ x.loop_ = false) := by
  have hx : x.Alive := h.invariant alive_init fun _ _ _ hu hguard hstep => hu.step hguard hstep
  refine ⟨fun howner => ?_, hx.present, fun howner => ?_⟩
  · have hquit : x.ownerPc.hasQuit = false := by
      rcases howner with howner | howner | howner <;> simp [howner, OwnerPc.hasQuit]
    have hloop : x.loop_ = true := by
      have hstarted := hx.started
      rcases howner with howner | howner | howner <;> simpa [howner, OwnerPc.hasQuit] using hstarted
    refine ⟨?_, hloop, (hx.running hquit).1⟩
    rcases hx.published.mp hloop with hthread | hthread | hthread <;> simp [hasLoop, hthread]
  · have hthread := hx.joined howner
    have hpublished := hx.published
    simp only [hthread, reduceCtorEq, or_self, iff_false, Bool.not_eq_true] at hpublished
    exact ⟨by simp [hasLoop, hthread], hpublished⟩

/-- Thread 1 uses the loop that `startloop` has returned; the destructor finds it. -/
theorem usable_of_reaches_exiting :
    ∃ x : EventLoopThread (Fin 2) ℕ, x.ownerPc = .exiting ∧ x.loop.pendingFunctions_ = [7] ∧
      x.hasLoop = true ∧ x.loop_ = true := by
  obtain ⟨x, hx, howner, hpending⟩ := Reaches.exists_of_run (C := OnlyDestructorQuits) (s := init)
    (P := fun x : EventLoopThread (Fin 2) ℕ =>
      x.ownerPc = .exiting ∧ x.loop.pendingFunctions_ = [7]) (step 0)
    [.startloop, .threadFunc, .threadFunc, .published, .use (.queueInLoop (some 1) 7),
      .destroy] (by decide +kernel)
  obtain ⟨hloop, hflag, -⟩ := (usable_of_reaches hx).1 (.inr (.inl howner))
  exact ⟨x, howner, hpending, hloop, hflag⟩

end EventLoopThread

end TinyMuduo
