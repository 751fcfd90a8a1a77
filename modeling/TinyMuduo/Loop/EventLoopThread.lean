import TinyMuduo.Loop.Eventloop

/-!
# The thread of an event loop

`EventLoopThread::startloop` (`resoure/EventLoopThread.cpp`) starts a thread that executes
`threadFunc` and waits until that thread has published its loop in `loop_`; the destructor calls
`Eventloop::quit` on the loop and joins the thread. This file embeds the two threads over the steps
of the loop, with the other threads that may use the loop in between.

`startloop` returns before `threadFunc` has called `Eventloop::loop`, and `Eventloop::loop` starts
with a store of `false` to `quit_`: a `quit` of the destructor that comes before that store is
overwritten, the loop polls and the join does not end.

## Main definitions

* `ThreadPc`, `OwnerPc`: where the two threads stand.
* `EventLoopThread`, `EventLoopThread.threadFunc`, `EventLoopThread.startloop`,
  `EventLoopThread.destroy`, `EventLoopThread.step`.
* `EventLoopThread.hasReset`: `Eventloop::loop` has stored `false` to `quit_`.
* `EventLoopThread.QuitAfterReset`: the guard under which the request of the destructor stands.

## Main results

* `EventLoopThread.quit_stands`: a request made after the store of `false` is not lost.
* `EventLoopThread.exists_quit_lost`: a request made before it is.
-/

namespace TinyMuduo

/-- `Eventloop::loop` has done its first two stores. -/
def LoopPc.hasReset {F : Type*} : LoopPc F → Bool
  | .outside | .looping => false
  | _ => true

/-- Where the thread that executes `EventLoopThread::threadFunc` stands: before the constructor of
its loop, in `callback_`, before and in `Eventloop::loop`, before the last store to `loop_`. -/
inductive ThreadPc
  | notStarted
  | constructing
  | callback
  | published
  | looping
  | clearing
  | finished
  deriving DecidableEq

/-- Where the thread stands that calls `startloop` and then destroys the `EventLoopThread`: in the
destructor it is `exiting` before the test of `loop_`, `quitting` before the store to `quit_`, and
`joining` after it. The destructor that finds no loop leaves it `gone`. -/
inductive OwnerPc
  | idle
  | starting
  | started
  | exiting
  | quitting
  | joining
  | joined
  | gone
  deriving DecidableEq

/-- The destructor has stored `true` to `quit_`. -/
def OwnerPc.hasQuit : OwnerPc → Bool
  | joining | joined => true
  | _ => false

/-- An `EventLoopThread` with the local variable `loop` of `threadFunc`; `loop_` says whether the
pointer to it is set. -/
structure EventLoopThread (T F : Type*) where
  loop_ : Bool
  exiting_ : Bool
  loop : Eventloop T F
  threadPc : ThreadPc
  ownerPc : OwnerPc

namespace EventLoopThread

variable {T F : Type*}

/-- `EventLoopThread::EventLoopThread`. -/
def init : EventLoopThread T F :=
  ⟨false, false, Eventloop.init, .notStarted, .idle⟩

variable (x : EventLoopThread T F)

/-- `EventLoopThread::startloop` up to the wait for `loop_`. -/
def startloop : Option (EventLoopThread T F) :=
  match x.ownerPc, x.threadPc with
  | .idle, .notStarted => some { x with threadPc := .constructing, ownerPc := .starting }
  | _, _ => none

/-- The return of `EventLoopThread::startloop`. -/
def published : Option (EventLoopThread T F) :=
  match x.ownerPc with
  | .starting => if x.loop_ then some { x with ownerPc := .started } else none
  | _ => none

/-- The next step of `EventLoopThread::threadFunc`. -/
def threadFunc : Option (EventLoopThread T F) :=
  match x.threadPc with
  | .notStarted | .finished => none
  | .constructing => some { x with threadPc := .callback }
  | .callback =>
    if x.loop.notifying none then none else some { x with loop_ := true, threadPc := .published }
  | .published | .looping =>
    x.loop.loop.map fun e =>
      { x with loop := e, threadPc := if e.pc matches .outside then .clearing else .looping }
  | .clearing => some { x with loop_ := false, threadPc := .finished }

/-- The loop exists. -/
def hasLoop : Bool :=
  match x.threadPc with
  | .notStarted | .constructing | .finished => false
  | _ => true

section Calls

variable [DecidableEq T] (owner : T)

/-- The next step of `EventLoopThread::~EventLoopThread`. A call through a pointer to a loop that
has been destroyed has no successor. -/
def destroy : Option (EventLoopThread T F) :=
  match x.ownerPc with
  | .started => some { x with exiting_ := true, ownerPc := .exiting }
  | .exiting => some { x with ownerPc := if x.loop_ then .quitting else .gone }
  | .quitting =>
    if x.hasLoop then
      (x.loop.quit (some owner)).map fun e => { x with loop := e, ownerPc := .joining }
    else none
  | .joining =>
    if x.loop.notifying (some owner) || x.threadPc != .finished then none
    else some { x with ownerPc := .joined }
  | _ => none

/-- The thread may use the loop: the owner between `startloop` and the destructor, the thread of the
loop in `callback_` and in the callbacks of the loop. -/
def mayUse (caller : Option T) : Bool :=
  x.hasLoop &&
    match caller with
    | some t => t != owner || x.ownerPc == .started
    | none => x.threadPc == .callback || x.threadPc == .looping

/-- A step of the loop other than those of `threadFunc`. -/
def use (a : Eventloop.Action T F) : Option (EventLoopThread T F) :=
  let allowed :=
    match a with
    | .queueInLoop caller _ | .runInLoop caller _ | .quit caller => x.mayUse owner caller
    | .notify _ | .poll _ | .handleRead => true
    | .loop => false
  if allowed then (x.loop.step a).map fun e => { x with loop := e } else none

end Calls

/-- The steps of the threads. -/
inductive Action (T F : Type*)
  | startloop
  | published
  | threadFunc
  | destroy
  | use (a : Eventloop.Action T F)

/-- One step of some thread. -/
def step [DecidableEq T] (owner : T) (x : EventLoopThread T F) :
    Action T F → Option (EventLoopThread T F)
  | .startloop => x.startloop
  | .published => x.published
  | .threadFunc => x.threadFunc
  | .destroy => x.destroy owner
  | .use a => x.use owner a

/-- `Eventloop::loop` has stored `false` to `quit_`. -/
def hasReset : Bool :=
  match x.threadPc with
  | .looping => x.loop.pc.hasReset
  | .clearing | .finished => true
  | _ => false

/-- The destructor stores `true` to `quit_` after the loop has stored `false`. -/
def QuitAfterReset : Action T F → Prop
  | .destroy => x.ownerPc = .quitting → x.hasReset = true
  | _ => True

instance : DecidablePred x.QuitAfterReset
  | .destroy => inferInstanceAs (Decidable (_ → _))
  | .startloop | .published | .threadFunc | .use _ => .isTrue trivial

/-- The call of `Eventloop::quit` in the destructor has returned. -/
def QuitReturned (owner : T) : Prop :=
  x.ownerPc.hasQuit = true ∧ x.loop.notifying (some owner) = false

instance (owner : T) : Decidable (x.QuitReturned owner) :=
  inferInstanceAs (Decidable (_ ∧ _))

/-- The request of the destructor stands. -/
structure Stands : Prop where
  reset : x.ownerPc.hasQuit = true → x.hasReset = true
  quit : x.ownerPc.hasQuit = true → x.loop.quit_ = true

theorem stands_init : (init : EventLoopThread T F).Stands :=
  ⟨by simp [init, OwnerPc.hasQuit], by simp [init, OwnerPc.hasQuit]⟩

/-! ### What the steps of the loop keep -/

section Loop

variable {e e' : Eventloop T F}

/-- After its first two stores the loop does not store to `quit_`. -/
theorem quit_loop (h : e.loop = some e') (hreset : e.pc.hasReset = true) :
    e'.quit_ = e.quit_ ∧ (e'.pc.hasReset = true ∨ e'.pc = .outside) := by
  cases hpc : e.pc with
  | functors rest => cases rest <;> grind [Eventloop.loop, LoopPc.hasReset]
  | _ => grind [Eventloop.loop, LoopPc.hasReset]

variable [DecidableEq T]

/-- The other steps leave a request as it is. -/
theorem quit_step {a : Eventloop.Action T F} (h : e.step a = some e') (ha : a ≠ .loop) :
    (e.quit_ = true → e'.quit_ = true) ∧ e'.pc.hasReset = e.pc.hasReset := by
  cases a with
  | loop => exact absurd rfl ha
  | queueInLoop caller cb => grind [Eventloop.step, Eventloop.queueInLoop]
  | runInLoop caller cb => grind [Eventloop.step, Eventloop.runInLoop, Eventloop.queueInLoop]
  | quit caller => grind [Eventloop.step, Eventloop.quit]
  | notify caller => grind [Eventloop.step, Eventloop.notify, Eventloop.wakeup]
  | poll wakeupActive => grind [Eventloop.step, Eventloop.poll, LoopPc.hasReset]
  | handleRead => grind [Eventloop.step, Eventloop.handleRead, LoopPc.hasReset]

/-- The loop polls only when its condition finds `quit_` unset. -/
theorem quit_eq_false_of_poll {a : Eventloop.Action T F} (h : e.step a = some e')
    (hpc : e.pc = .condition) (hpc' : e'.pc = .polling) : e.quit_ = false := by
  cases a with
  | queueInLoop caller cb => grind [Eventloop.step, Eventloop.queueInLoop]
  | runInLoop caller cb => grind [Eventloop.step, Eventloop.runInLoop, Eventloop.queueInLoop]
  | quit caller => grind [Eventloop.step, Eventloop.quit]
  | notify caller => grind [Eventloop.step, Eventloop.notify, Eventloop.wakeup]
  | poll wakeupActive => grind [Eventloop.step, Eventloop.poll]
  | handleRead => grind [Eventloop.step, Eventloop.handleRead]
  | loop => grind [Eventloop.step, Eventloop.loop]

end Loop

/-! ### What the steps of the threads keep -/

section Step

variable {x} {x' : EventLoopThread T F}

/-- A step of `threadFunc` leaves the owner where it is; it is a step of the loop, or none. -/
theorem threadFunc_cases (h : x.threadFunc = some x') :
    x'.ownerPc = x.ownerPc ∧
      (x'.loop = x.loop ∧ (x.hasReset = true → x'.hasReset = true) ∨
        x.loop.loop = some x'.loop ∧ (x.hasReset = true → x.loop.pc.hasReset = true) ∧
          x'.threadPc = if x'.loop.pc matches .outside then .clearing else .looping) := by
  unfold threadFunc at h
  cases hthread : x.threadPc <;> simp only [hthread, reduceCtorEq] at h
  case constructing =>
    obtain rfl := Option.some.inj h
    exact ⟨rfl, .inl ⟨rfl, by simp [hasReset, hthread]⟩⟩
  case callback =>
    obtain ⟨-, h⟩ := Option.ite_none_left_eq_some.mp h
    obtain rfl := Option.some.inj h
    exact ⟨rfl, .inl ⟨rfl, by simp [hasReset, hthread]⟩⟩
  case published | looping =>
    obtain ⟨e, he, rfl⟩ := Option.map_eq_some_iff.mp h
    exact ⟨rfl, .inr ⟨he, by simp [hasReset, hthread], rfl⟩⟩
  case clearing =>
    obtain rfl := Option.some.inj h
    exact ⟨rfl, .inl ⟨rfl, fun _ => rfl⟩⟩

/-- After the loop has stored `false` to `quit_`, `threadFunc` leaves `quit_` as it is. -/
theorem quit_threadFunc (h : x.threadFunc = some x') (hreset : x.hasReset = true) :
    x'.hasReset = true ∧ x'.loop.quit_ = x.loop.quit_ := by
  obtain ⟨-, ⟨hloop, hkeep⟩ | ⟨hloop, hpc, hthread⟩⟩ := threadFunc_cases h
  · exact ⟨hkeep hreset, by rw [hloop]⟩
  · obtain ⟨hquit, hpc' | hpc'⟩ := quit_loop hloop (hpc hreset)
    · have hthread' : x'.threadPc = .looping := by
        rw [hthread]
        cases hcase : x'.loop.pc <;> simp_all [LoopPc.hasReset]
      exact ⟨by simp only [hasReset, hthread', hpc'], hquit⟩
    · have hthread' : x'.threadPc = .clearing := by
        rw [hthread, hpc']
        rfl
      exact ⟨by simp only [hasReset, hthread'], hquit⟩

theorem Stands.threadFunc (hx : x.Stands) (h : x.threadFunc = some x') : x'.Stands := by
  have howner := (threadFunc_cases h).1
  constructor
  · intro hquit
    rw [howner] at hquit
    exact (quit_threadFunc h (hx.reset hquit)).1
  · intro hquit
    rw [howner] at hquit
    rw [(quit_threadFunc h (hx.reset hquit)).2]
    exact hx.quit hquit

/-- The owner has made no request before the destructor. -/
theorem stands_of_hasQuit_eq_false (h : x.ownerPc.hasQuit = false) : x.Stands :=
  ⟨fun hquit => absurd (h.symm.trans hquit) (by simp),
    fun hquit => absurd (h.symm.trans hquit) (by simp)⟩

private theorem stands_startloop (h : x.startloop = some x') : x'.Stands ∧ x'.loop = x.loop := by
  unfold startloop at h
  split at h
  · obtain rfl := Option.some.inj h
    exact ⟨stands_of_hasQuit_eq_false rfl, rfl⟩
  · exact absurd h (by simp)

private theorem stands_published (h : x.published = some x') : x'.Stands ∧ x'.loop = x.loop := by
  unfold published at h
  split at h
  · obtain ⟨-, h⟩ := Option.ite_none_right_eq_some.mp h
    obtain rfl := Option.some.inj h
    exact ⟨stands_of_hasQuit_eq_false rfl, rfl⟩
  · exact absurd h (by simp)

variable [DecidableEq T] {owner : T}

/-- The destructor stores to `quit_` in one step, which leaves it `joining`. -/
theorem destroy_cases (h : x.destroy owner = some x') :
    x'.ownerPc.hasQuit = x.ownerPc.hasQuit ∧ x'.threadPc = x.threadPc ∧ x'.loop = x.loop ∨
      x.ownerPc = .quitting ∧ x'.threadPc = x.threadPc ∧
        x.loop.quit (some owner) = some x'.loop := by
  unfold destroy at h
  cases howner : x.ownerPc <;> simp only [howner, reduceCtorEq] at h
  case started =>
    obtain rfl := Option.some.inj h
    exact .inl ⟨rfl, rfl, rfl⟩
  case exiting =>
    obtain rfl := Option.some.inj h
    exact .inl ⟨by cases x.loop_ <;> rfl, rfl, rfl⟩
  case quitting =>
    obtain ⟨-, h⟩ := Option.ite_none_right_eq_some.mp h
    obtain ⟨e, he, rfl⟩ := Option.map_eq_some_iff.mp h
    exact .inr ⟨rfl, rfl, he⟩
  case joining =>
    obtain ⟨-, h⟩ := Option.ite_none_left_eq_some.mp h
    obtain rfl := Option.some.inj h
    exact .inl ⟨rfl, rfl, rfl⟩

/-- The destructor makes its request where the loop has stored `false`. -/
theorem Stands.destroy (hx : x.Stands) (hguard : x.ownerPc = .quitting → x.hasReset = true)
    (h : x.destroy owner = some x') : x'.Stands := by
  rcases destroy_cases h with ⟨howner, hthread, hloop⟩ | ⟨howner, hthread, hquit⟩
  · have hreset : x'.hasReset = x.hasReset := by rw [hasReset, hasReset, hthread, hloop]
    constructor
    · rw [howner, hreset]
      exact hx.reset
    · rw [howner, hloop]
      exact hx.quit
  · obtain ⟨-, he⟩ := Option.ite_none_right_eq_some.mp hquit
    have hloop := Option.some.inj he
    have hreset : x'.hasReset = x.hasReset := by rw [hasReset, hasReset, hthread, ← hloop]
    exact ⟨fun _ => hreset.trans (hguard howner), fun _ => by rw [← hloop]⟩

theorem use_eq_some {a : Eventloop.Action T F} (h : x.use owner a = some x') :
    a ≠ .loop ∧ ∃ e, x.loop.step a = some e ∧ x' = { x with loop := e } := by
  obtain ⟨hallowed, h⟩ := Option.ite_none_right_eq_some.mp h
  obtain ⟨e, he, rfl⟩ := Option.map_eq_some_iff.mp h
  refine ⟨?_, e, he, rfl⟩
  rintro rfl
  exact absurd hallowed (by simp)

theorem Stands.use (hx : x.Stands) {a : Eventloop.Action T F} (h : x.use owner a = some x') :
    x'.Stands := by
  obtain ⟨ha, e, he, rfl⟩ := use_eq_some h
  obtain ⟨hquit, hpc⟩ := quit_step he ha
  refine ⟨fun hq => ?_, fun hq => hquit (hx.quit hq)⟩
  have hreset := hx.reset hq
  unfold hasReset at hreset ⊢
  rwa [hpc]

theorem Stands.step (hx : x.Stands) {a : Action T F} (hguard : x.QuitAfterReset a)
    (h : x.step owner a = some x') : x'.Stands := by
  cases a with
  | startloop => exact (stands_startloop h).1
  | published => exact (stands_published h).1
  | threadFunc => exact hx.threadFunc h
  | destroy => exact hx.destroy hguard h
  | use a => exact hx.use h

/-- The threads act on the loop by its steps. -/
theorem loop_step {a : Action T F} (h : x.step owner a = some x') :
    x'.loop = x.loop ∨ ∃ b, x.loop.step b = some x'.loop := by
  cases a with
  | startloop => exact .inl (stands_startloop h).2
  | published => exact .inl (stands_published h).2
  | threadFunc =>
    obtain ⟨-, ⟨hloop, -⟩ | ⟨hloop, -⟩⟩ := threadFunc_cases h
    · exact .inl hloop
    · exact .inr ⟨.loop, hloop⟩
  | destroy =>
    rcases destroy_cases h with ⟨-, -, hloop⟩ | ⟨-, -, hquit⟩
    · exact .inl hloop
    · exact .inr ⟨.quit (some owner), hquit⟩
  | use a =>
    obtain ⟨-, e, he, rfl⟩ := use_eq_some h
    exact .inr ⟨a, he⟩

end Step

/-! ### Runs -/

section Runs

open Transition

variable {x} [DecidableEq T] {owner : T}

/-- A run of the threads is a run of the loop. -/
theorem reaches_loop (h : Reaches (ofStep (step owner)) anyLabel init x) :
    Reaches (ofStep Eventloop.step) anyLabel Eventloop.init x.loop :=
  h.map loop fun u a v _ _ hstep => by
    rcases loop_step hstep with hloop | ⟨b, hb⟩
    · exact hloop ▸ Reaches.refl _
    · exact (Reaches.refl _).snoc trivial hb

/-- A request that the destructor makes after the loop has stored `false` to `quit_` is never lost:
`quit_` stays set, and no step starts another `poll`. -/
theorem quit_stands (h : Reaches (ofStep (step owner)) QuitAfterReset init x)
    (hquit : x.ownerPc.hasQuit = true) :
    x.loop.quit_ = true ∧
      ∀ (a : Action T F) (x' : EventLoopThread T F), x.step owner a = some x' →
        x.loop.pc = .condition → x'.loop.pc ≠ .polling := by
  have hx : x.Stands := h.invariant stands_init fun _ _ _ hu hguard hstep => hu.step hguard hstep
  refine ⟨hx.quit hquit, fun a x' hstep hpc hpc' => ?_⟩
  rcases loop_step hstep with hloop | ⟨b, hb⟩
  · rw [hloop, hpc] at hpc'
    exact absurd hpc' (by simp)
  · exact absurd ((quit_eq_false_of_poll hb hpc hpc').symm.trans (hx.quit hquit)) (by simp)

/-- The destructor makes its request while the loop is in its first `poll`; the wakeup brings the
loop back to its condition. -/
theorem quit_stands_first_poll :
    ∃ x : EventLoopThread Unit ℕ, x.QuitReturned () ∧ x.loop.pc = .condition ∧
      x.loop.quit_ = true ∧
        ∀ (a : Action Unit ℕ) (x' : EventLoopThread Unit ℕ), x.step () a = some x' →
          x'.loop.pc ≠ .polling := by
  have hrun : Reaches (ofStep (step ())) QuitAfterReset (init : EventLoopThread Unit ℕ) _ :=
    Reaches.of_run [.startloop, .threadFunc, .threadFunc, .published, .threadFunc, .threadFunc,
      .threadFunc, .destroy, .destroy, .destroy, .use (.notify (some ())), .use (.poll true),
      .use .handleRead, .threadFunc, .threadFunc, .threadFunc, .threadFunc] rfl
  obtain ⟨hquit, hpoll⟩ := quit_stands hrun rfl
  exact ⟨_, ⟨rfl, rfl⟩, rfl, hquit, fun a x' hstep => hpoll a x' hstep rfl⟩

/-- The destructor makes its request before the loop stores `false` to `quit_`: the call returns and
the loop polls. -/
theorem exists_quit_lost :
    ∃ x : EventLoopThread Unit ℕ, Reaches (ofStep (step ())) anyLabel init x ∧
      x.QuitReturned () ∧ x.loop.quit_ = false ∧ x.loop.pc = .polling :=
  ⟨_, Reaches.of_run [.startloop, .threadFunc, .threadFunc, .published, .destroy, .destroy,
    .destroy, .use (.notify (some ())), .threadFunc, .threadFunc, .threadFunc] rfl,
    ⟨rfl, rfl⟩, rfl, rfl⟩

end Runs

end EventLoopThread

end TinyMuduo
