import TinyMuduo.Connection.Lifecycle

/-!
# Closing a connection

`handleClose` runs the close callback, by which the server removes the connection from its map and
sends `connectDestoryed` to the loop of the connection. This file follows that course of events. A
removal that has begun is one token, and each token becomes one call of `connectDestoryed`
(`ServerConnection.tokens_of_moves`). `handleClose` runs twice when the channel is registered again
after it, by a message that was accepted before and leaves bytes to be buffered, or when
`handleRead` finds the end of the stream after it.

## Main definitions

* `ServerConnection.ClosesOnce`: the steps that do not run `handleClose` again.
* `ServerConnection.Closing`: the invariant of the runs of such steps.

## Main results

* `ServerConnection.handleClose_once`: while the server is alive, `handleClose` and
  `connectDestoryed` run at most once, and the connection is erased from the map once.
-/

namespace TinyMuduo

namespace ServerConnection

variable {T P : Type*}

/-- The next step of the thread of the loop is `handleRead`, and its `readFd` returns 0. -/
def readsEnd (s : ServerConnection T P) (n : ReadResult) : Bool :=
  match s.phase, n with
  | .handleEvent (.readcallback_ :: _), .zero => true
  | _, _ => false

/-- The next step of the thread of the loop is `sendInLoop`, and bytes remain after its `write`. -/
def buffers (s : ServerConnection T P) (r : WriteResult) : Bool :=
  match s.task with
  | some (.sendInLoop m) => s.conn.leaves (m.read s.mem) r != []
  | _ => false

/-- After `handleClose`, no `readFd` returns 0 and no `sendInLoop` leaves bytes to be buffered. -/
def ClosesOnce (s : ServerConnection T P) : Action T P → Prop
  | .callback n _ => .handleClose ∈ s.trace → s.readsEnd n = false
  | .task r => .handleClose ∈ s.trace → s.buffers r = false
  | _ => True

instance (s : ServerConnection T P) : (a : Action T P) → Decidable (s.ClosesOnce a)
  | .callback n _ => inferInstanceAs (Decidable (.handleClose ∈ s.trace → s.readsEnd n = false))
  | .task r => inferInstanceAs (Decidable (.handleClose ∈ s.trace → s.buffers r = false))
  | .poll _ | .handleEvent | .handleOther | .swap | .functor | .resume | .send _ _ _ | .shutdown _
  | .proceed _ | .queueInLoop | .modify _ _ | .removeConnectionInLoop | .destroyServer =>
    .isTrue trivial

/-- The removals of the connection that the server has still to begin. -/
def removals [DecidableEq P] (s : ServerConnection T P) : ℕ :=
  s.stack.count .closeCallback + s.task.toList.count .removeConnectionInLoop + s.baseLoop

/-- The calls of `connectDestoryed` that are queued, about to begin, or begun. -/
def destructions [DecidableEq P] (s : ServerConnection T P) : ℕ :=
  s.task.toList.count .connectDestoryed + s.queue.items.count .connectDestoryed +
    s.trace.count .connectDestoryed

/-- `connectDestoryed` begins only after `handleClose`, unless the server is destroyed. -/
def Live (s : ServerConnection T P) : Prop := s.alive = true ∨ .connectDestoryed ∉ s.trace

variable [DecidableEq T] [DecidableEq P] {s s' : ServerConnection T P} {a : Action T P}

/-- The course of events from `handleClose` to `connectDestoryed`. -/
structure Closing (s : ServerConnection T P) : Prop where
  events : s.Live → (∃ m, s.phase = .events (some m)) → .handleClose ∉ s.trace
  handlers : ∀ hs, s.phase = .handleEvent hs → .closecallback_ ∉ hs.tail
  pending : s.Live → (∃ hs, s.phase = .handleEvent (.closecallback_ :: hs)) →
    .handleClose ∉ s.trace
  once : s.Live → s.trace.count .handleClose ≤ 1
  closed : s.Live → .handleClose ∈ s.trace → s.conn.channel_.Closed
  tokens : s.alive = true → s.removals + s.destructions = s.trace.count .handleClose
  mapped : s.inMap = true → s.destructions = 0
  unmapped : s.alive = true → s.inMap = false → s.destructions = 1
  destructions_le : s.destructions ≤ 1
  erased : ∀ n, .erase n ∈ s.trace → n = 1
  established : .handleClose ∈ s.trace → .established ∈ s.trace
  order : s.alive = true →
    Log.Holds (fun pre e => e = .connectDestoryed → .established ∈ pre) s.trace

theorem live_of_moves (hm : Moves s a s') (h : s'.Live) : s.Live := by
  unfold Live at *
  cases hm <;> simp_all

/-- What a step does to the removals and the destructions. -/
theorem tokens_of_moves (hm : Moves s a s') :
    s'.alive = s.alive ∧ s'.inMap = s.inMap ∧ s'.destructions = s.destructions ∧
        s'.removals + s.trace.count .handleClose = s.removals + s'.trace.count .handleClose ∨
      s.alive = true ∧ s'.alive = true ∧ s'.inMap = false ∧
        s'.destructions = s.destructions + 1 ∧ s.removals = s'.removals + 1 ∧
        s'.trace.count .handleClose = s.trace.count .handleClose ∨
      s'.alive = false ∧ s'.inMap = false ∧
        s'.destructions = s.destructions + if s.inMap then 1 else 0 := by
  unfold removals destructions
  cases hm with
  | swap _ htask hstack hbatch =>
    left
    simp [htask, hstack, StagedQueue.items_swap _ hbatch]
  | functor _ htask hstack hpop =>
    left
    simp [htask, hstack, StagedQueue.items_pop hpop, List.count_cons]
    omega
  | handleClose _ htask hstack =>
    left
    simp [htask, hstack]
    omega
  | connectDestoryed htask =>
    left
    by_cases hstate : s.conn.state_ = .kConnected <;> simp [htask, hstate] <;> omega
  | closeFrom htask hstack =>
    left
    simp [htask, hstack]
    omega
  | eraseOnLoop htask halive =>
    right; left
    simp [htask, halive]
    omega
  | eraseFrom halive hloop =>
    right; left
    simp [halive]
    omega
  | destroyUnmapped hmap =>
    right; right
    simp [hmap]
  | destroyOnLoop hmap hloop htask =>
    right; right
    simp [hmap, htask]
    omega
  | destroyFrom hmap =>
    right; right
    simp [hmap]
    omega
  | sendOnLoop hmay | shutdownOnLoop hmay =>
    obtain ⟨-, htask, -⟩ := mayCall_none.mp hmay
    simp [htask]
  | @handlewrite _ r _ _ htask hstack =>
    left
    cases htests : (s.conn.handlewriteOut r).2.2 <;> simp [htask, hstack, htests]
  | shutdownIfDisconnecting htask =>
    left
    by_cases hstate : s.conn.state_ = .kDisconnecting <;> simp [htask, hstate]
  | _ => left; simp_all

namespace Closing

omit [DecidableEq T] in
/-- Before the server is destroyed, `connectDestoryed` begins after `handleClose`. -/
theorem handleClose_of_connectDestoryed (h : s.Closing) (hlive : s.Live)
    (hd : .connectDestoryed ∈ s.trace) : .handleClose ∈ s.trace := by
  have halive : s.alive = true := by simpa [Live, hd] using hlive
  have htokens := h.tokens halive
  have hcount : 0 < s.trace.count .connectDestoryed := List.count_pos_iff.mpr hd
  exact List.count_pos_iff.mp (by rw [← htokens, destructions]; omega)

omit [DecidableEq T] in
/-- The channel is registered for reading until `handleClose` runs. -/
theorem reading (h : s.Closing) (hr : s.Running) (hlive : s.Live)
    (hopen : .handleClose ∉ s.trace) : s.conn.channel_.Reading := by
  have hd : .connectDestoryed ∉ s.trace :=
    fun hd => hopen (h.handleClose_of_connectDestoryed hlive hd)
  exact hr.reading (by simp [disconnected, hopen, mt hr.disconnect hd])
    fun hdestroyed => hd (hr.destroyed hdestroyed).1

omit [DecidableEq T] in
/-- `handleClose` has not run when it is about to run. -/
theorem handleClose_not_mem (h : s.Closing) (hlive : s.Live) {hd : Handler}
    {handlers : List Handler} {n : ReadResult} {r : WriteResult}
    (hc : s.ClosesOnce (.callback n r)) (hphase : s.phase = .handleEvent (hd :: handlers))
    (hclose : hd = .closecallback_ ∨ hd = .readcallback_ ∧ n = .zero) :
    .handleClose ∉ s.trace := by
  rcases hclose with rfl | ⟨rfl, rfl⟩
  · exact h.pending hlive ⟨_, hphase⟩
  · exact fun hclosed => by simpa [readsEnd, hphase] using hc hclosed

omit [DecidableEq T] in
/-- A server that has still to remove the connection maps its name. -/
theorem inMap_of_removals_pos (h : s.Closing) (halive : s.alive = true) (hpos : 0 < s.removals) :
    s.inMap = true := by
  have htokens := h.tokens halive
  have honce := h.once (.inl halive)
  by_contra hmap
  have hunmapped := h.unmapped halive (by simpa using hmap)
  omega

section Fields

variable (h : s.Closing) (hr : s.Running) (hc : s.ClosesOnce a) (hm : Moves s a s')

include h hm in
private theorem moves_handlers : ∀ hs, s'.phase = .handleEvent hs → .closecallback_ ∉ hs.tail := by
  have hhandlers := h.handlers
  cases hm with
  | handleEvent =>
    rintro hs ⟨⟩
    exact EventMask.closecallback_not_mem_tail _
  | handleClose hphase | handleError hphase | messageCallback hphase | handlewrite hphase =>
    rintro hs ⟨⟩ hmem
    exact hhandlers _ hphase (List.mem_of_mem_tail hmem)
  | _ => simp_all

include h hr hc hm in
private theorem moves_closed : s'.Live → .handleClose ∈ s'.trace → s'.conn.channel_.Closed := by
  intro hlive' hmem
  have hlive := live_of_moves hm hlive'
  have hclosed := h.closed hlive
  cases hm with
  | handleClose hphase _ _ hclose =>
    have hreading := h.reading hr hlive (h.handleClose_not_mem hlive hc hphase hclose)
    exact Registration.closed_disableAll hreading.added
  | handlewrite =>
    have hchannel := hclosed (by simpa using hmem)
    simpa [TcpConnection.handlewriteOut_of_closed hchannel] using hchannel
  | sendInLoop htask =>
    have hmem : .handleClose ∈ s.trace := by simpa using hmem
    have hleaves := by simpa [buffers, htask] using hc hmem
    simpa [TcpConnection.channel_sendInLoop_of_leaves_eq_nil hleaves] using hclosed hmem
  | disconnect htask =>
    have hopen := (hr.disconnecting htask).1
    simp_all [disconnected]
  | removeChannel => exact (hclosed (by simpa using hmem)).remove
  | connectEstablished htask => exact absurd htask hr.started.task
  | _ => simpa using hclosed (by simpa using hmem)

include hm in
omit h hr hc in
/-- `handleClose` is logged by a handler of the channel. -/
theorem handleClose_mem_of_moves (hmem : .handleClose ∈ s'.trace) :
    .handleClose ∈ s.trace ∨ ∃ h handlers, s.phase = .handleEvent (h :: handlers) := by
  cases hm with
  | handleClose hphase => exact .inr ⟨_, _, hphase⟩
  | _ => exact .inl (by simpa using hmem)

include h hm in
private theorem moves_pending : s'.Live → (∃ hs, s'.phase = .handleEvent (.closecallback_ :: hs)) →
    .handleClose ∉ s'.trace := by
  rintro hlive' ⟨hs, hphase'⟩ hmem
  have hlive := live_of_moves hm hlive'
  have hpending := h.pending hlive
  cases hm with
  | poll | swap | functors | handled => simp at hphase'
  | handleEvent hphase => exact h.events hlive ⟨_, hphase⟩ hmem
  | handleClose hphase | handleError hphase | messageCallback hphase | handlewrite hphase =>
    -- the handler that has run is followed by handlers other than `handleClose`
    obtain rfl := Phase.handleEvent.inj hphase'
    exact h.handlers _ hphase List.mem_cons_self
  | _ => exact hpending ⟨hs, by simpa using hphase'⟩ (by simpa using hmem)

include h hm in
private theorem moves_events : s'.Live → (∃ m, s'.phase = .events (some m)) →
    .handleClose ∉ s'.trace := by
  rintro hlive' ⟨m, hphase'⟩ hmem
  have hlive := live_of_moves hm hlive'
  have hevents := h.events hlive
  cases hm with
  | poll hphase _ _ hreport =>
    obtain rfl := Phase.events.inj hphase'
    have hreport := hreport m rfl
    simp [mayReport, (h.closed hlive hmem).interest] at hreport
  | handleEvent | swap | functors | handled | handleClose | handleError | messageCallback
  | handlewrite => simp at hphase'
  | _ => exact hevents ⟨m, by simpa using hphase'⟩ (by simpa using hmem)

include h hc hm in
private theorem moves_once : s'.Live → s'.trace.count .handleClose ≤ 1 := by
  intro hlive'
  have hlive := live_of_moves hm hlive'
  have honce := h.once hlive
  cases hm with
  | handleClose hphase _ _ hclose =>
    have hcount := List.count_eq_zero.mpr (h.handleClose_not_mem hlive hc hphase hclose)
    simp [List.count_append, hcount]
  | _ => simpa using honce

include h hm in
private theorem moves_destructions :
    (s'.alive = true → s'.removals + s'.destructions = s'.trace.count .handleClose) ∧
      (s'.inMap = true → s'.destructions = 0) ∧
      (s'.alive = true → s'.inMap = false → s'.destructions = 1) ∧ s'.destructions ≤ 1 := by
  have htokens := h.tokens
  have hmapped := h.mapped
  have hunmapped := h.unmapped
  have hle := h.destructions_le
  rcases tokens_of_moves hm with ⟨halive, hmap, hdestr, hrem⟩ |
    ⟨halive, halive', hmap, hdestr, hrem, hcount⟩ | ⟨halive, hmap, hdestr⟩
  · rw [halive, hmap, hdestr]
    refine ⟨fun ha => ?_, hmapped, hunmapped, hle⟩
    have htokens := htokens ha
    omega
  · have honce := h.once (.inl halive)
    have htokens := htokens halive
    exact ⟨fun _ => by omega, by simp [hmap], fun _ _ => by omega, by omega⟩
  · refine ⟨by simp [halive], by simp [hmap], by simp [halive], ?_⟩
    cases hin : s.inMap with
    | false => simpa [hdestr, hin] using hle
    | true => simp [hdestr, hin, hmapped hin]

include h hm in
private theorem moves_erased : ∀ n, .erase n ∈ s'.trace → n = 1 := by
  have herased := h.erased
  cases hm with
  | eraseOnLoop htask halive =>
    have hmap := h.inMap_of_removals_pos halive (by
      simp only [removals, htask, Option.toList_some, List.count_singleton_self]
      omega)
    simpa [hmap, or_imp, forall_and] using herased
  | eraseFrom halive hloop =>
    have hmap := h.inMap_of_removals_pos halive (by simp [removals]; omega)
    simpa [hmap, or_imp, forall_and] using herased
  | _ => simpa using herased

include h hr hm in
theorem moves_established : .handleClose ∈ s'.trace → .established ∈ s'.trace := by
  intro hmem
  refine mem_trace_of_moves hm ?_
  rcases handleClose_mem_of_moves hm hmem with hold | ⟨hd, handlers, hphase⟩
  · exact h.established hold
  · exact hr.handling (.inr ⟨hd, handlers, hphase⟩)

include h hm in
theorem moves_order : s'.alive = true →
    Log.Holds (fun pre e => e = .connectDestoryed → .established ∈ pre) s'.trace := by
  have horder := h.order
  cases hm with
  | connectDestoryed htask =>
    intro halive
    have hclosed : .handleClose ∈ s.trace := by
      have htokens := h.tokens halive
      have hpos : 0 < s.destructions := by
        simp only [destructions, htask, Option.toList_some, List.count_singleton_self]
        omega
      exact List.count_pos_iff.mp (by omega)
    exact Log.holds_append.mpr ⟨horder halive, by simpa using h.established hclosed⟩
  | _ => simp_all [Log.holds_append]

end Fields

theorem moves (h : s.Closing) (hl : s.Life) (hc : s.ClosesOnce a) (hm : Moves s a s') :
    s'.Closing :=
  have ⟨htokens, hmapped, hunmapped, hle⟩ := h.moves_destructions hm
  { events := h.moves_events hm
    handlers := h.moves_handlers hm
    pending := h.moves_pending hm
    once := h.moves_once hc hm
    closed := by
      rcases hl with hf | hr
      · exact fun _ he => absurd (hf.trace_of_moves hm he) (by simp)
      · exact h.moves_closed hr hc hm
    tokens := htokens
    mapped := hmapped
    unmapped := hunmapped
    destructions_le := hle
    erased := h.moves_erased hm
    established := by
      rcases hl with hf | hr
      · exact fun he => absurd (hf.trace_of_moves hm he) (by simp)
      · exact h.moves_established hr hm
    order := h.moves_order hm }

omit [DecidableEq T] in
theorem init (conn : TcpConnection) (mem : P → ℕ → UInt8) (sameLoop : Bool) :
    (ServerConnection.init (T := T) conn mem sameLoop).Closing := by
  cases sameLoop <;>
    constructor <;>
    simp [ServerConnection.init, removals, destructions, StagedQueue.items]

end Closing

/-- While the server is alive, as long as no `readFd` returns 0 and no `sendInLoop` leaves bytes to
be buffered after `handleClose`: `handleClose` runs at most once, the assertion of
`removeConnectionInLoop` holds, and `connectDestoryed` runs at most once, after
`connectEstablished`. -/
theorem handleClose_once {writeCompleteCallback highWaterMarkCallback : Bool} {highWaterMark : ℕ}
    {mem : P → ℕ → UInt8} {sameLoop : Bool}
    (h : Transition.Reaches (Transition.ofStep step) ClosesOnce
      (init (T := T) (.init writeCompleteCallback highWaterMarkCallback highWaterMark) mem sameLoop)
      s) (halive : s.alive = true) :
    s.trace.count .handleClose ≤ 1 ∧ (∀ n, .erase n ∈ s.trace → n = 1) ∧
      s.trace.count .connectDestoryed ≤ 1 ∧
      Log.Holds (fun pre e => e = .connectDestoryed → .established ∈ pre) s.trace := by
  have hinv : s.Life ∧ s.Closing := h.invariant (I := fun u => u.Life ∧ u.Closing)
    ⟨.inl (fresh_init ..), Closing.init ..⟩ fun _ _ _ ⟨hl, hclosing⟩ hc hstep =>
      ⟨hl.moves (moves_of_step hstep), hclosing.moves hl hc (moves_of_step hstep)⟩
  have hle := hinv.2.destructions_le
  exact ⟨hinv.2.once (.inl halive), hinv.2.erased, by rw [destructions] at hle; omega,
    hinv.2.order halive⟩

/-- The peer closes, and the connection is removed. -/
theorem handleClose_once_of_peer_close :
    ∃ s : ServerConnection Unit Unit, .connectDestoryed ∈ s.trace ∧
      s.trace.count .handleClose ≤ 1 := by
  let s₀ : ServerConnection Unit Unit := init (.init false false 64) (fun _ _ => 7) false
  obtain ⟨s, hreach, halive, hmem⟩ := Transition.Reaches.exists_of_run (C := ClosesOnce) (s := s₀)
    (P := fun s => s.alive = true ∧ .connectDestoryed ∈ s.trace) step
    (establish.append [.poll (some EPOLLIN), .handleEvent, .callback .zero (.room 0),
      .task (.room 0), .resume, .resume, .callback .zero (.room 0), .removeConnectionInLoop, .swap,
      .functor, .task (.room 0)]) (by decide +kernel)
  exact ⟨s, hmem, (handleClose_once hreach halive).1⟩

/-- A message accepted before the peer closes is sent after `handleClose`: its functor registers the
channel again, and `EPOLLHUP` runs `handleClose` a second time. -/
theorem exists_reaches_handleClose_twice :
    ∃ s : ServerConnection Unit Unit,
      Transition.Reaches (Transition.ofStep step) Transition.anyLabel
        (init (.init false false 64) (fun _ _ => 7) false) s ∧
      s.alive = true ∧ s.trace.count .handleClose = 2 ∧ .erase 0 ∈ s.trace ∧
      s.trace.count .connectDestoryed = 2 :=
  Transition.Reaches.exists_of_run step
    (establish.append [.send (some ()) () 1, .poll (some EPOLLIN), .handleEvent,
      .callback .zero (.room 0), .task (.room 0), .resume, .resume, .callback .zero (.room 0),
      .proceed (), .swap, .functor, .task (.error .EWOULDBLOCK .other), .functor,
      .poll (some EPOLLHUP), .handleEvent, .callback .zero (.room 0), .task (.room 0), .resume,
      .resume, .callback .zero (.room 0), .removeConnectionInLoop, .removeConnectionInLoop, .swap,
      .functor, .task (.room 0), .resume, .functor, .task (.room 0)]) (by decide +kernel)

end ServerConnection

end TinyMuduo
