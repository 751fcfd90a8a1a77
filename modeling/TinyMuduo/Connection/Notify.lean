import TinyMuduo.Connection.Close

/-!
# The notifications of a connection

`connectionCallback_` is called when a connection is established and when it has gone down. The
second call is made by `handleClose` or by `connectDestoryed`, which makes it only if it finds
`kConnected`: a connection that `shutdown` has left in `kDisconnecting` is destroyed without it
unless `handleClose` runs before.

## Main definitions

* `callbacks`: the calls of `connectionCallback_` in the log.
* `ServerConnection.ClosesFirst`: the steps that do not destroy a connection that is shutting down.
* `ServerConnection.Notified`: the invariant of the runs of such steps.

## Main results

* `ServerConnection.callbacks_of_destroyed`: a connection that has been destroyed was notified of
  its start and of its end, once each.
-/

namespace TinyMuduo

/-- The value of `connected()` in a call of `connectionCallback_`. -/
def Event.connected : Event → Option Bool
  | connectionCallback connected => some connected
  | _ => none

/-- The values of `connected()` in the calls of `connectionCallback_`, in order. -/
def callbacks (log : List Event) : List Bool := log.filterMap Event.connected

@[simp] theorem callbacks_nil : callbacks [] = [] := rfl

@[simp] theorem callbacks_append (log new : List Event) :
    callbacks (log ++ new) = callbacks log ++ callbacks new :=
  List.filterMap_append

theorem callbacks_cons (e : Event) (log : List Event) :
    callbacks (e :: log) = e.connected.toList ++ callbacks log := by
  cases h : e.connected <;> simp [callbacks, h]

@[simp] theorem callbacks_ite {c : Prop} [Decidable c] (log new : List Event) :
    callbacks (if c then log else new) = if c then callbacks log else callbacks new :=
  apply_ite callbacks c log new

namespace ServerConnection

variable {T P : Type*}

/-- A connection that is shutting down is closed before `connectDestoryed`. -/
def ClosesFirst (s : ServerConnection T P) : Action T P → Prop
  | .task _ => s.task = some .connectDestoryed → s.conn.state_ = .kDisconnecting →
      .handleClose ∈ s.trace
  | _ => True

instance [DecidableEq P] (s : ServerConnection T P) : (a : Action T P) → Decidable (s.ClosesFirst a)
  | .task _ => inferInstanceAs (Decidable (s.task = some .connectDestoryed →
      s.conn.state_ = .kDisconnecting → .handleClose ∈ s.trace))
  | .poll _ | .handleEvent | .handleOther | .swap | .functor | .callback _ _ | .resume
  | .send _ _ _ | .shutdown _ | .proceed _ | .queueInLoop | .modify _ _ | .removeConnectionInLoop
  | .destroyServer => .isTrue trivial

/-- The connection is closed once, and before `connectDestoryed` when it is shutting down. -/
def Notifies (s : ServerConnection T P) (a : Action T P) : Prop := s.ClosesOnce a ∧ s.ClosesFirst a

instance [DecidableEq P] (s : ServerConnection T P) (a : Action T P) : Decidable (s.Notifies a) :=
  inferInstanceAs (Decidable (s.ClosesOnce a ∧ s.ClosesFirst a))

/-- The call of `connectionCallback_` that is about to be made. -/
def owed (task : Option (Task P)) (state : StateE) : List Bool :=
  match task with
  | some .connectionCallback => [state == .kConnected]
  | _ => []

@[simp] theorem owed_none (state : StateE) : owed (none : Option (Task P)) state = [] := rfl

@[simp] theorem owed_connectionCallback (state : StateE) :
    owed (some (.connectionCallback : Task P)) state = [state == .kConnected] := rfl

@[simp] theorem owed_eq_nil {task : Option (Task P)} (h : task ≠ some .connectionCallback)
    (state : StateE) : owed task state = [] := by
  unfold owed
  split
  · exact absurd rfl h
  · rfl

@[simp] theorem owed_task (f : Functor P) (state : StateE) : owed f.task state = [] := by
  exact owed_eq_nil (by cases f <;> simp [Functor.task]) state

/-- The stores of `kDisconnected`, each of which is followed by a notification. -/
def closes (s : ServerConnection T P) : ℕ :=
  s.trace.count .handleClose + s.trace.count .disconnect

variable [DecidableEq T] [DecidableEq P] {s s' : ServerConnection T P} {a : Action T P}

/-- The calls of `connectionCallback_` so far, and what `connectDestoryed` has still to do. -/
structure Notified (s : ServerConnection T P) : Prop where
  callbacks_eq : .destroyed ∉ s.trace →
    callbacks s.trace ++ owed s.task s.conn.state_ = true :: List.replicate s.closes false
  calls : ∀ t, s.calls t ≠ none → s.published = true
  removing : .removeChannel ∈ s.stack → s.closes + s.task.toList.count .disconnect = 1
  returns : s.stack.count .removeChannel + s.trace.count .destroyed =
    s.trace.count .connectDestoryed
  order : Log.Holds (fun pre e => e = .destroyed → callbacks pre = [true, false]) s.trace

namespace Notified

section Fields

variable (h : s.Notified) (hr : s.Running) (hcl : s.Closing) (hc : s.Notifies a) (hm : Moves s a s')

omit [DecidableEq T] [DecidableEq P] in
theorem callbacks_ne_nil (h : s.published = true) : callbacks s.trace ≠ [] := by
  simp only [published, List.contains_eq_mem, Bool.or_eq_true, decide_eq_true_eq] at h
  intro hnil
  rcases h with h | h <;> simpa [Event.connected] using List.filterMap_eq_nil_iff.mp hnil _ h

include h hr hm in
private theorem moves_callbacks_eq : .destroyed ∉ s'.trace →
    callbacks s'.trace ++ owed s'.task s'.conn.state_ = true :: List.replicate s'.closes false := by
  intro hdestroyed
  have htask := hr.started.task
  have hcallbacks := h.callbacks_eq (mt (mem_trace_of_moves hm) hdestroyed)
  unfold closes at *
  cases hm with
  | handleClose _ htask =>
    simp only [htask, owed_none, List.append_nil] at hcallbacks
    simp [callbacks_cons, Event.connected, hcallbacks, Nat.add_right_comm, List.replicate_succ']
  | disconnect htask =>
    have howed : owed s.task s.conn.state_ = [] := owed_eq_nil (by simp [htask]) _
    rw [howed, List.append_nil] at hcallbacks
    simp [callbacks_cons, Event.connected, hcallbacks, ← Nat.add_assoc, List.replicate_succ']
  | setDisconnecting hcall =>
    by_cases htask : s.task = some .connectionCallback
    · have hpublished := h.calls _ (ne_of_eq_of_ne hcall (Option.some_ne_none _))
      obtain ⟨b, bs, hlog⟩ := List.exists_cons_of_ne_nil (callbacks_ne_nil hpublished)
      rw [htask, hlog, owed_connectionCallback, List.cons_append] at hcallbacks
      obtain ⟨-, hrest⟩ := List.cons.inj hcallbacks
      have hmem : (s.conn.state_ == .kConnected) ∈ bs ++ [s.conn.state_ == .kConnected] := by simp
      rw [hrest] at hmem
      have hfalse : (s.conn.state_ == .kConnected) = false := List.eq_of_mem_replicate hmem
      rw [hfalse] at hcallbacks
      simp only [htask, hlog, owed_connectionCallback, List.cons_append]
      exact hcallbacks
    · simpa [htask] using hcallbacks
  | sendOnLoop hmay | shutdownOnLoop hmay =>
    obtain ⟨-, htask, -⟩ := mayCall_none.mp hmay
    simp_all [callbacks_cons, Event.connected]
  | _ => simp_all [callbacks_cons, Event.connected]

omit [DecidableEq T] [DecidableEq P] in
include hr in
/-- When `connectDestoryed` begins in another state than `kConnected`, `handleClose` has run. -/
theorem handleClose_mem {r : WriteResult} (hc : s.Notifies (.task r))
    (htask : s.task = some .connectDestoryed) (hstate : s.conn.state_ ≠ .kConnected)
    (hd : .connectDestoryed ∉ s.trace) : .handleClose ∈ s.trace := by
  cases hstate' : s.conn.state_ with
  | kConnected => exact absurd hstate' hstate
  | kConnecting => exact absurd hstate' hr.started.state
  | kDisconnecting => exact hc.2 htask hstate'
  | kDisconnected =>
    rcases (disconnected_iff s).mp (hr.stored hstate') with hclosed | hdisconnect
    · exact hclosed
    · exact absurd (hr.disconnect hdisconnect) hd

include h hr hcl hc hm in
theorem moves_removing :
    .removeChannel ∈ s'.stack → s'.closes + s'.task.toList.count .disconnect = 1 := by
  have hremoving := h.removing
  unfold closes at *
  cases hm with
  | connectDestoryed htask =>
    intro
    have hd : .connectDestoryed ∉ s.trace := by
      have hle := hcl.destructions_le
      simp only [destructions, htask, Option.toList_some, List.count_singleton_self] at hle
      exact List.count_eq_zero.mp (by omega)
    have hnone : s.trace.count .disconnect = 0 := List.count_eq_zero.mpr (mt hr.disconnect hd)
    have honce := hcl.once (.inr hd)
    by_cases hstate : s.conn.state_ = .kConnected
    · have hopen : s.trace.count .handleClose = 0 :=
        List.count_eq_zero.mpr fun hclosed =>
          hr.left ((disconnected_iff s).mpr (.inl hclosed)) hstate
      simp [hstate, hopen, hnone]
    · have hpos := List.count_pos_iff.mpr (handleClose_mem hr hc htask hstate hd)
      simp [hstate, hnone]
      omega
  | shutdownIfDisconnecting htask =>
    by_cases hstate : s.conn.state_ = .kDisconnecting <;> simp_all
  | sendOnLoop hmay | shutdownOnLoop hmay =>
    obtain ⟨-, htask, -⟩ := mayCall_none.mp hmay
    simp_all
  | _ => simp_all

include h hm in
private theorem moves_returns : s'.stack.count .removeChannel + s'.trace.count .destroyed =
    s'.trace.count .connectDestoryed := by
  have hreturns := h.returns
  cases hm with
  | connectDestoryed =>
    simp
    omega
  | removeChannel _ hstack =>
    simp [hstack] at hreturns ⊢
    omega
  | _ => simp_all

include h hcl hm in
theorem moves_order :
    Log.Holds (fun pre e => e = .destroyed → callbacks pre = [true, false]) s'.trace := by
  have horder := h.order
  cases hm with
  | removeChannel htask hstack =>
    have hreturns := h.returns
    have hle := hcl.destructions_le
    simp only [hstack, List.count_cons_self, destructions] at hreturns hle
    have hcallbacks := h.callbacks_eq (List.count_eq_zero.mp (by omega))
    have hcloses := h.removing (by simp [hstack])
    simp only [htask, owed_none, Option.toList_none, List.count_nil, List.append_nil,
      Nat.add_zero] at hcallbacks hcloses
    simp [Log.holds_append, horder, hcallbacks, hcloses]
  | _ => simpa [Log.holds_append] using horder

end Fields

theorem moves (h : s.Notified) (hr : s.Running) (hcl : s.Closing) (hc : s.Notifies a)
    (hm : Moves s a s') : s'.Notified where
  callbacks_eq := h.moves_callbacks_eq hr hm
  calls _ ht := published_of_calls hm h.calls ht
  removing := h.moves_removing hr hcl hc hm
  returns := h.moves_returns hm
  order := h.moves_order hcl hm

end Notified

omit [DecidableEq T] in
theorem Fresh.notified (h : s.Fresh) (htask : s.task = some .connectEstablished) :
    s.connectEstablished.Notified := by
  obtain ⟨hstack, -⟩ := h.stack_items htask
  constructor <;> simp [closes, h.trace, hstack, h.calls, callbacks_cons, Event.connected]

/-- The invariant of the runs in which the connection notifies its user. -/
def NotifyLife (s : ServerConnection T P) : Prop :=
  s.Closing ∧ (s.Fresh ∨ s.Running ∧ s.Notified)

theorem NotifyLife.moves (h : s.NotifyLife) (hc : s.Notifies a) (hm : Moves s a s') :
    s'.NotifyLife := by
  obtain ⟨hcl, hfresh | ⟨hr, hn⟩⟩ := h
  · refine ⟨hcl.moves (.inl hfresh) hc.1 hm, ?_⟩
    rcases hfresh.moves hm with hfresh' | ⟨htask, rfl⟩
    · exact .inl hfresh'
    · exact .inr ⟨hfresh.running htask, hfresh.notified htask⟩
  · exact ⟨hcl.moves (.inr hr) hc.1 hm, .inr ⟨hr.moves hm, hn.moves hr hcl hc hm⟩⟩

end ServerConnection

end TinyMuduo
