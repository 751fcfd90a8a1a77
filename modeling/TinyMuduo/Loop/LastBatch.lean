import TinyMuduo.Loop.Join

/-!
# The functors that are left when a loop ends

`Eventloop::loop` (`resoure/Eventloop.cpp`) tests `quit_` after `doPendingFunctors` and not before.
So what the destructor of `EventLoopThread` leaves behind depends on where the thread of the loop
stands when `quit_` is set. In front of its next swap, in `poll` or in a handler, it forms one more
batch, and every functor that was queued before is executed before the thread ends. Behind the swap
it executes the rest of its batch only: the functors that are pending are never executed, although
they were queued before the loop was asked to quit.

## Main definitions

* `LoopPc.willSwap`: the thread of the loop forms a batch before it tests `quit_` again.

## Main results

* `EventLoopThread.executed_of_finished`: which functors are executed.
-/

namespace TinyMuduo

/-- The thread of the loop forms a batch before it tests `quit_` again. -/
def LoopPc.willSwap {F : Type*} : LoopPc F → Bool
  | .polling | .events _ | .calling | .swapping => true
  | _ => false

namespace Eventloop

open StagedQueue

variable {T F : Type*} {e e' : Eventloop T F}

/-- Once `quit_` is set, the thread of the loop does not come back in front of a swap, and takes
functors only in the swap, and then all of them. -/
theorem taken_loop (hquit : e.quit_ = true) (hc : e.history.Conserved) (h : e.loop = some e') :
    (e.pc.willSwap = false →
      e'.pc.willSwap = false ∧ e'.history.taken = e.history.taken) ∧
    (e'.pc.willSwap = true ∨ e.pc.willSwap = false ∨
      e'.history.taken = e.history.pushed.map Prod.fst) := by
  cases hpc : e.pc with
  | swapping =>
    have hswap : e.history.step .swap = some e'.history := by
      simp only [loop, hpc, Option.some.injEq] at h
      subst h
      simp [history, History.step, hpc, LoopPc.batch, StagedQueue.swap]
    exact ⟨by simp [LoopPc.willSwap], .inr (.inr (hc.taken_swap hswap))⟩
  | functors rest =>
    refine ⟨fun _ => ?_, .inr (.inl rfl)⟩
    cases rest <;>
    · simp only [loop, hpc, Option.some.injEq] at h
      subst h
      simp [LoopPc.willSwap, History.taken, history, hpc, LoopPc.batch]
  | events wakeupActive =>
    refine ⟨by simp [LoopPc.willSwap], .inl ?_⟩
    cases wakeupActive <;> grind [loop, LoopPc.willSwap]
  | calling => exact ⟨by simp [LoopPc.willSwap], .inl (by grind [loop, LoopPc.willSwap])⟩
  | polling => simp [loop, hpc] at h
  | _ =>
    refine ⟨fun _ => ?_, .inr (.inl rfl)⟩
    grind [loop, LoopPc.willSwap, History.taken, history, LoopPc.batch]

variable [DecidableEq T]

theorem pushed_prefix {a : Action T F} (h : e.step a = some e') :
    e.history.pushed <+: e'.history.pushed := by
  rcases history_step h with hop | ⟨op, hop⟩
  · exact hop ▸ List.prefix_rfl
  · exact History.pushed_prefix hop

/-- The other steps take no functor and leave the loop on its side of the swap. -/
theorem taken_other {a : Action T F} (h : e.step a = some e') (ha : a ≠ .loop) :
    e'.pc.willSwap = e.pc.willSwap ∧ e'.history.taken = e.history.taken := by
  have hpush {cb : F} (hop : e.history.step (.push cb) = some e'.history) :
      e'.history.taken = e.history.taken :=
    History.taken_of_ne_swap hop (by simp)
  have hpc (ha : a ≠ .loop ∧ a ≠ .handleRead ∧ ∀ wakeupActive, a ≠ .poll wakeupActive) :
      e'.pc.willSwap = e.pc.willSwap :=
    congrArg LoopPc.willSwap (stepsLeft_call h ha).1
  cases a with
  | queueInLoop caller cb => exact ⟨hpc (by simp), hpush (history_queueInLoop h)⟩
  | runInLoop caller cb =>
    refine ⟨hpc (by simp), ?_⟩
    rcases history_runInLoop h with hop | hop
    · rw [hop]
    · exact hpush hop
  | quit caller => exact ⟨hpc (by simp), congrArg History.taken (history_quit h)⟩
  | notify caller => exact ⟨hpc (by simp), congrArg History.taken (history_notify h)⟩
  | poll wakeupActive =>
    refine ⟨?_, congrArg History.taken (history_poll h)⟩
    grind [Eventloop.step, poll, LoopPc.willSwap]
  | handleRead =>
    refine ⟨?_, congrArg History.taken (history_handleRead h)⟩
    grind [Eventloop.step, handleRead, LoopPc.willSwap]
  | loop => exact absurd rfl ha

/-- Once `quit_` is set: behind the swap no functor is taken, and the swap takes them all. -/
theorem taken_step {a : Action T F} (hquit : e.quit_ = true) (hc : e.history.Conserved)
    (h : e.step a = some e') :
    (e.pc.willSwap = false →
      e'.pc.willSwap = false ∧ e'.history.taken = e.history.taken) ∧
    (e'.pc.willSwap = true ∨ e.pc.willSwap = false ∨
      e'.history.taken = e.history.pushed.map Prod.fst) := by
  by_cases ha : a = .loop
  · subst ha
    exact taken_loop hquit hc h
  · obtain ⟨hpc, htaken⟩ := taken_other h ha
    rw [hpc]
    refine ⟨fun hswap => ⟨hswap, htaken⟩, ?_⟩
    cases e.pc.willSwap with
    | true => exact .inl rfl
    | false => exact .inr (.inl rfl)

end Eventloop

namespace EventLoopThread

open Transition StagedQueue

variable {T F : Type*} [DecidableEq T] {owner : T} {u x x' : EventLoopThread T F}

/-- What holds of the functors while the request of the destructor stands, when `v` is the loop at
the request: in front of the swap nothing is settled; behind it, the functors taken are those of
`v`, with all that were pending if `v` was in front of the swap. -/
structure Leaves (v : Eventloop T F) (x : EventLoopThread T F) : Prop where
  conserved : x.loop.history.Conserved
  pushed : v.history.pushed <+: x.loop.history.pushed
  before : v.pc.willSwap = true →
    x.loop.pc.willSwap = true ∨ v.history.pushed.map Prod.fst <+: x.loop.history.taken
  behind : v.pc.willSwap = false →
    x.loop.pc.willSwap = false ∧ x.loop.history.taken = v.history.taken

theorem Leaves.step {v : Eventloop T F} (hx : Leaves v x) (hquit : x.loop.quit_ = true)
    {a : Action T F} (h : x.step owner a = some x') : Leaves v x' := by
  rcases loop_step h with hloop | ⟨b, hb⟩
  · exact
      { conserved := hloop ▸ hx.conserved
        pushed := hloop ▸ hx.pushed
        before := hloop ▸ hx.before
        behind := hloop ▸ hx.behind }
  · obtain ⟨hbehind, hswap⟩ := Eventloop.taken_step hquit hx.conserved hb
    refine
      { conserved := ?_
        pushed := hx.pushed.trans (Eventloop.pushed_prefix hb)
        before := fun hv => ?_
        behind := fun hv => ?_ }
    · rcases Eventloop.history_step hb with hop | ⟨op, hop⟩
      · exact hop ▸ hx.conserved
      · exact hx.conserved.step hop
    · by_cases hwill : x.loop.pc.willSwap = true
      · rcases hswap with hwill' | hnot | htaken
        · exact .inl hwill'
        · exact absurd (hnot.symm.trans hwill) (by simp)
        · exact .inr (htaken ▸ hx.pushed.map Prod.fst)
      · have htaken := (hx.before hv).resolve_left hwill
        exact .inr ((hbehind (by simpa using hwill)).2 ▸ htaken)
    · obtain ⟨hwill, htaken⟩ := hx.behind hv
      obtain ⟨hwill', htaken'⟩ := hbehind hwill
      exact ⟨hwill', htaken'.trans htaken⟩

/-- Which functors are executed when the thread has ended, from any state in which the request of
the destructor stands: where the thread of the loop is in front of its swap, all that are queued,
before any that are queued later; behind the swap those of its batch and no other. -/
theorem executed_of_finished (h : Reaches (ofStep (step owner)) QuitAfterReset init u)
    (hquit : u.ownerPc.hasQuit = true) (h' : Reaches (ofStep (step owner)) QuitAfterReset u x)
    (hfinished : x.threadPc = .finished) :
    (u.loop.pc.willSwap = true →
      u.loop.queued.map Prod.fst <+: x.loop.executed.map Prod.fst) ∧
    (u.loop.pc.willSwap = false →
      x.loop.executed.map Prod.fst = u.loop.executed.map Prod.fst ++ u.loop.pc.batch) := by
  have hu : u.Ends owner := h.invariant (I := fun y => y.Ends owner) (ends_init owner)
    fun _ _ _ hy hguard hstep => hy.step hguard hstep
  have hconserved : u.loop.history.Conserved :=
    History.conserved_of_reaches
      (Eventloop.reaches_history (reaches_loop (h.mono fun _ _ _ => trivial)))
  have hstart : Leaves u.loop u := ⟨hconserved, List.prefix_rfl, .inl, fun hv => ⟨hv, rfl⟩⟩
  obtain ⟨hx, -, hleaves⟩ : x.Ends owner ∧ x.ownerPc.hasQuit = true ∧ Leaves u.loop x := by
    refine h'.invariant
      (I := fun y => y.Ends owner ∧ y.ownerPc.hasQuit = true ∧ Leaves u.loop y)
      ⟨hu, hquit, hstart⟩ ?_
    rintro y a z ⟨hy, hyquit, hyleaves⟩ hguard hstep
    exact ⟨hy.step hguard hstep, (hy.stepsLeft_step hyquit hstep).1,
      hyleaves.step (hy.stands.quit hyquit) hstep⟩
  -- the loop is over, so what was taken was executed
  have hpc := hx.outside (by simp [hfinished])
  have htaken : x.loop.history.taken = x.loop.executed.map Prod.fst := by
    simp [History.taken, Eventloop.history, hpc, LoopPc.batch]
  constructor
  · intro hv
    exact htaken ▸ (hleaves.before hv).resolve_left (by simp [hpc, LoopPc.willSwap])
  · intro hv
    rw [← htaken, (hleaves.behind hv).2]
    rfl

/-- The destructor asks the loop to quit while the functor 7 of thread 1 is executed, and 8 is
pending: 8 is not executed. -/
theorem executed_of_finished_functor :
    ∃ x : EventLoopThread (Fin 2) ℕ, x.threadPc = .finished ∧
      x.loop.queued.map Prod.fst = [7, 8] ∧ x.loop.executed.map Prod.fst = [7] := by
  have hu : Reaches (ofStep (step 0)) QuitAfterReset (init : EventLoopThread (Fin 2) ℕ) _ :=
    Reaches.of_run [.startloop, .threadFunc, .threadFunc, .published,
      .use (.queueInLoop (some 1) 7), .use (.notify (some 1)), .threadFunc, .threadFunc,
      .threadFunc, .use (.poll false), .threadFunc, .threadFunc, .threadFunc, .threadFunc,
      .use (.queueInLoop (some 1) 8), .destroy, .destroy, .destroy] rfl
  have hend := executed_of_finished hu rfl (Reaches.of_run [.use (.notify (some 1)),
    .use (.notify (some 0)), .threadFunc, .threadFunc, .threadFunc, .threadFunc] rfl) rfl
  exact ⟨_, rfl, rfl, hend.2 rfl⟩

end EventLoopThread

end TinyMuduo
