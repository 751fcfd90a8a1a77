import Mathlib.Data.List.Forall2
import TinyMuduo.Library.Transition

/-!
# Queues drained in batches

A *staged queue* is a list of pending items and a batch. Items are pushed at the end of the
pending list; when the batch is empty it is exchanged with the pending list, and its items are then
popped from the front, one at a time, while further items are pushed.

The history of a queue records the items pushed and the items popped, in order, each with the
number of exchanges made before. Along every run of pushes, exchanges and pops

* the items pushed are the items popped followed by the batch followed by the pending list
  (`StagedQueue.History.Conserved.pushed_eq`), and
* an item popped was pushed before the exchange that formed its batch
  (`StagedQueue.History.Conserved.stamp_lt`).

## Main definitions

* `StagedQueue`, `StagedQueue.push`, `StagedQueue.pushAll`, `StagedQueue.swap`, `StagedQueue.pop`,
  `StagedQueue.items`.
* `StagedQueue.History`, `StagedQueue.History.step`: a queue with its history, and its operations.
* `StagedQueue.History.Conserved`: the invariant that ties the history to the queue.
-/

/-- A batch being drained and the items that wait for the next batch. -/
structure StagedQueue (α : Type*) where
  batch : List α
  pending : List α

namespace StagedQueue

variable {α : Type*} (q : StagedQueue α)

/-- The queue without items. -/
def empty : StagedQueue α := ⟨[], []⟩

/-- The items in the queue, the next one to be popped first. -/
def items : List α := q.batch ++ q.pending

/-- An item pushed at the end of the pending list. -/
def push (x : α) : StagedQueue α := { q with pending := q.pending ++ [x] }

/-- Items pushed one after the other. -/
def pushAll (xs : List α) : StagedQueue α := { q with pending := q.pending ++ xs }

/-- The batch exchanged with the pending list. -/
def swap : StagedQueue α := ⟨q.pending, q.batch⟩

/-- The next item of the batch, and the queue without it. -/
def pop : Option (α × StagedQueue α) :=
  match q.batch with
  | [] => none
  | x :: batch => some (x, { q with batch := batch })

@[simp] theorem items_push (x : α) : (q.push x).items = q.items ++ [x] := by
  simp [items, push]

@[simp] theorem items_pushAll (xs : List α) : (q.pushAll xs).items = q.items ++ xs := by
  simp [items, pushAll]

/-- Exchanging an empty batch with the pending list keeps the order of the items. -/
theorem items_swap (h : q.batch = []) : q.swap.items = q.items := by
  simp [items, swap, h]

theorem pop_eq_some {q q' : StagedQueue α} {x : α} (h : q.pop = some (x, q')) :
    q.batch = x :: q'.batch ∧ q'.pending = q.pending := by
  unfold pop at h
  cases hb : q.batch with
  | nil => simp [hb] at h
  | cons y batch =>
    simp only [hb, Option.some.injEq, Prod.mk.injEq] at h
    obtain ⟨rfl, rfl⟩ := h
    exact ⟨rfl, rfl⟩

/-- Popping takes the first item. -/
theorem items_pop {q q' : StagedQueue α} {x : α} (h : q.pop = some (x, q')) :
    q.items = x :: q'.items := by
  obtain ⟨hb, hp⟩ := pop_eq_some h
  simp [items, hb, hp]

/-- A queue with the record of what was pushed and popped, each item with the number of exchanges
of the batch made before. -/
structure History (α : Type*) where
  queue : StagedQueue α
  swaps : ℕ
  pushed : List (α × ℕ)
  popped : List (α × ℕ)

namespace History

/-- The operations of a staged queue. -/
inductive Op (α : Type*)
  | push (x : α)
  | swap
  | pop

/-- The queue before any operation. -/
def init : History α := ⟨empty, 0, [], []⟩

/-- One operation, recorded in the history. The batch is exchanged only when it is empty. -/
def step (h : History α) : Op α → Option (History α)
  | .push x => some { h with queue := h.queue.push x, pushed := h.pushed ++ [(x, h.swaps)] }
  | .swap => if h.queue.batch.isEmpty then
      some { h with queue := h.queue.swap, swaps := h.swaps + 1 } else none
  | .pop => h.queue.pop.map fun p =>
      { h with queue := p.2, popped := h.popped ++ [(p.1, h.swaps)] }

/-- The items pushed fall into those popped, the batch and the pending ones, in this order; an
item popped was pushed before its batch was formed, an item of the batch before the last
exchange. -/
def Conserved (h : History α) : Prop :=
  ∃ done batch pending : List (α × ℕ), h.pushed = done ++ (batch ++ pending) ∧
    List.Forall₂ (fun x y => x.1 = y.1 ∧ x.2 < y.2) done h.popped ∧
    batch.map Prod.fst = h.queue.batch ∧ pending.map Prod.fst = h.queue.pending ∧
    (∀ x ∈ batch, x.2 < h.swaps) ∧ ∀ x ∈ pending, x.2 ≤ h.swaps

theorem conserved_init : (init : History α).Conserved :=
  ⟨[], [], [], rfl, .nil, rfl, rfl, by simp, by simp⟩

theorem Conserved.push {h : History α} (hc : h.Conserved) (x : α) :
    Conserved { h with queue := h.queue.push x, pushed := h.pushed ++ [(x, h.swaps)] } := by
  obtain ⟨done, batch, pending, hpushed, hdone, hbatch, hpending, hlt, hle⟩ := hc
  refine ⟨done, batch, pending ++ [(x, h.swaps)], by simp [hpushed], hdone, hbatch,
    by simp [StagedQueue.push, hpending], hlt, ?_⟩
  intro y hy
  rcases List.mem_append.mp hy with hy | hy
  · exact hle y hy
  · simp [List.mem_singleton.mp hy]

theorem Conserved.swap {h : History α} (hc : h.Conserved) (hempty : h.queue.batch = []) :
    Conserved { h with queue := h.queue.swap, swaps := h.swaps + 1 } := by
  obtain ⟨done, batch, pending, hpushed, hdone, hbatch, hpending, hlt, hle⟩ := hc
  obtain rfl : batch = [] := by simpa [hempty] using hbatch
  exact ⟨done, pending, [], by simpa using hpushed, hdone, hpending,
    by simp [StagedQueue.swap, hempty], fun x hx => Nat.lt_succ_of_le (hle x hx), by simp⟩

theorem Conserved.pop {h : History α} (hc : h.Conserved) {x : α} {q : StagedQueue α}
    (hpop : h.queue.pop = some (x, q)) :
    Conserved { h with queue := q, popped := h.popped ++ [(x, h.swaps)] } := by
  obtain ⟨done, batch, pending, hpushed, hdone, hbatch, hpending, hlt, hle⟩ := hc
  obtain ⟨hb, hp⟩ := pop_eq_some hpop
  rw [hb] at hbatch
  obtain ⟨y, batch, rfl, rfl, hrest⟩ := List.map_eq_cons_iff.mp hbatch
  refine ⟨done ++ [y], batch, pending, by simp [hpushed], ?_, hrest, by rw [hpending, hp],
    fun z hz => hlt z (List.mem_cons_of_mem _ hz), hle⟩
  exact List.rel_append hdone (.cons ⟨rfl, hlt y List.mem_cons_self⟩ .nil)

/-- Every operation keeps the history tied to the queue. -/
theorem Conserved.step {h h' : History α} (hc : h.Conserved) {op : Op α}
    (hs : h.step op = some h') : h'.Conserved := by
  cases op with
  | push x =>
    obtain rfl := Option.some.inj hs
    exact hc.push x
  | swap =>
    simp only [History.step, Option.ite_none_right_eq_some, List.isEmpty_iff] at hs
    obtain ⟨hempty, hs⟩ := hs
    obtain rfl := Option.some.inj hs
    exact hc.swap hempty
  | pop =>
    obtain ⟨⟨x, q⟩, hpop, rfl⟩ := Option.map_eq_some_iff.mp hs
    exact hc.pop hpop

/-- The history of every run of a staged queue is tied to the queue. -/
theorem conserved_of_reaches {h : History α}
    (hr : Transition.Reaches (Transition.ofStep step) Transition.anyLabel init h) : h.Conserved :=
  hr.invariant conserved_init fun _ _ _ hc _ hs => hc.step hs

/-- Nothing is lost, duplicated or reordered: what was pushed is what was popped, then the batch,
then the pending items. -/
theorem Conserved.pushed_eq {h : History α} (hc : h.Conserved) :
    h.pushed.map Prod.fst = h.popped.map Prod.fst ++ (h.queue.batch ++ h.queue.pending) := by
  obtain ⟨done, batch, pending, hpushed, hdone, hbatch, hpending, -, -⟩ := hc
  have hfst : done.map Prod.fst = h.popped.map Prod.fst := by
    rw [← List.forall₂_eq_eq_eq, List.forall₂_map_left_iff, List.forall₂_map_right_iff]
    exact hdone.imp fun _ _ hxy => hxy.1
  simp [hpushed, hfst, hbatch, hpending]

/-- The `i`-th item popped is the `i`-th item pushed, and it was pushed before the exchange that
formed the batch it was popped from. -/
theorem Conserved.stamp_lt {h : History α} (hc : h.Conserved) {i : ℕ} {y : α × ℕ}
    (hy : h.popped[i]? = some y) : ∃ x, h.pushed[i]? = some x ∧ x.1 = y.1 ∧ x.2 < y.2 := by
  obtain ⟨done, batch, pending, hpushed, hdone, -, -, -, -⟩ := hc
  have hi : i < h.popped.length := (List.getElem?_eq_some_iff.mp hy).1
  have hi' : i < done.length := hdone.length_eq ▸ hi
  refine ⟨done[i], by simp [hpushed, List.getElem?_append_left hi', hi'], ?_⟩
  have hrel := (List.forall₂_iff_get.mp hdone).2 i hi' hi
  rw [List.getElem?_eq_getElem hi, Option.some.injEq] at hy
  simpa [← hy] using hrel

/-- The items that exchanges have taken from the pending list. -/
def taken (h : History α) : List α := h.popped.map Prod.fst ++ h.queue.batch

/-- Only an exchange takes items. -/
theorem taken_of_ne_swap {h h' : History α} {op : Op α} (hs : h.step op = some h')
    (hop : op ≠ .swap) : h'.taken = h.taken := by
  cases op with
  | push x =>
    obtain rfl := Option.some.inj hs
    rfl
  | swap => exact absurd rfl hop
  | pop =>
    obtain ⟨⟨x, q⟩, hpop, rfl⟩ := Option.map_eq_some_iff.mp hs
    simp [taken, (pop_eq_some hpop).1]

/-- An exchange takes all the items that were pushed. -/
theorem Conserved.taken_swap {h h' : History α} (hc : h.Conserved)
    (hs : h.step .swap = some h') : h'.taken = h.pushed.map Prod.fst := by
  simp only [History.step, Option.ite_none_right_eq_some, List.isEmpty_iff] at hs
  obtain ⟨hempty, hs⟩ := hs
  obtain rfl := Option.some.inj hs
  rw [hc.pushed_eq, hempty, List.nil_append]
  rfl

theorem pushed_prefix {h h' : History α} {op : Op α} (hs : h.step op = some h') :
    h.pushed <+: h'.pushed := by
  cases op with
  | push x =>
    obtain rfl := Option.some.inj hs
    exact List.prefix_append _ _
  | swap =>
    obtain ⟨-, hs⟩ := Option.ite_none_right_eq_some.mp hs
    obtain rfl := Option.some.inj hs
    exact List.prefix_rfl
  | pop =>
    obtain ⟨⟨x, q⟩, -, rfl⟩ := Option.map_eq_some_iff.mp hs
    exact List.prefix_rfl

end History

end StagedQueue
