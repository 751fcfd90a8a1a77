import Mathlib.Logic.Function.Basic
import TinyMuduo.Library.LinkedSegment
import TinyMuduo.Library.Transition

/-!
# A queue with two locks

This file embeds `base/blockqueue.h`. The queue is a linked list of nodes with a dummy node at its
end: `push` fills the dummy node and links a new one behind it, under `tail_mutex`, and the
consumers take the node at `head`, under `head_mutex`. Each section under `tail_mutex` is one step.
A pop is two steps under `head_mutex`: the comparison of `head` with `tail`, and `pop_head`. A
waiter whose comparison finds the queue empty parks in a step of its own; it is woken by
`notify_all`, or for no reason.

Nodes live at addresses, and the allocator returns any address without a node. A step that has no
result uses a null or dangling pointer, or is not the thread's turn. The values in the order of the
pushes and those that were popped are recorded in the state and read by nothing.

## Main definitions

* `threadsafe_queue`, `threadsafe_queue.step`: the queue and the steps of the threads.
* `threadsafe_queue.Moves`: what a step can do.
* `threadsafe_queue.Linked`: the invariant of the linked list.

## Main results

* `threadsafe_queue.Linked.isSome_pop_head`: no `pop_head` uses a null or dangling pointer.
* `threadsafe_queue.fifo`: in every state the popped values and those in the list are the pushed
  ones.
-/

namespace TinyMuduo

/-- The struct `node`. -/
structure node (A T : Type*) where
  data : Option T
  next : Option A

/-- Where a thread is in its call: of `push` with a value, of `try_pop` and `wait_and_pop`, each in
the form that stores the value through a reference or not. A waiter that is `blocking` has found the
queue empty and still holds `head_mutex`. -/
inductive QueueCall (T : Type*)
  | idle
  | push (new_value : T)
  | notify
  | try_pop (byValue : Bool)
  | wait_and_pop (byValue : Bool)
  | blocking (byValue : Bool)
  | parked (byValue : Bool)
  | pop_head (waits byValue : Bool)
  deriving DecidableEq

namespace QueueCall

variable {T : Type*}

/-- The calls of the interface that have steps of their own. -/
def starts : QueueCall T → Bool
  | push _ | try_pop _ | wait_and_pop _ => true
  | _ => false

/-- The thread holds `head_mutex`. -/
def holds : QueueCall T → Bool
  | blocking _ | pop_head _ _ => true
  | _ => false

/-- What `notify_all` makes of a call: one that is parked compares again. -/
def wake : QueueCall T → QueueCall T
  | parked byValue => wait_and_pop byValue
  | call => call

/-- No call starts in a section under `head_mutex`. -/
theorem holds_of_starts {call : QueueCall T} (h : call.starts = true) : call.holds = false := by
  cases call with
  | blocking byValue => exact absurd h Bool.false_ne_true
  | pop_head waits byValue => exact absurd h Bool.false_ne_true
  | _ => rfl

@[simp] theorem holds_wake (call : QueueCall T) : call.wake.holds = call.holds := by
  cases call <;> rfl

end QueueCall

/-- The class `threadsafe_queue<T>` and the calls of its threads. -/
structure threadsafe_queue (A T I : Type*) where
  nodes : A → Option (node A T)
  head : Option A
  tail : A
  head_mutex : Option I
  calls : I → QueueCall T
  pushed : List T
  popped : List (Option T)

namespace threadsafe_queue

variable {A T I : Type*}

section Steps

variable [DecidableEq A] [DecidableEq I]

/-- The constructor, with the address of the first dummy node. -/
def new (dummy : A) : threadsafe_queue A T I where
  nodes := Function.update (fun _ => none) dummy (some ⟨none, none⟩)
  head := some dummy
  tail := dummy
  head_mutex := none
  calls _ := .idle
  pushed := []
  popped := []

variable (q : threadsafe_queue A T I)

def setCall (t : I) (call : QueueCall T) : threadsafe_queue A T I :=
  { q with calls := Function.update q.calls t call }

/-- The section of `push` under `tail_mutex`, with the address of the new node. -/
def link (t : I) (p : A) (new_value : T) : threadsafe_queue A T I :=
  { q.setCall t .notify with
    nodes := Function.update (Function.update q.nodes q.tail (some ⟨some new_value, some p⟩)) p
      (some ⟨none, none⟩)
    tail := p
    pushed := q.pushed ++ [new_value] }

/-- `notify_all`. -/
def notify_all (t : I) : threadsafe_queue A T I :=
  { q with calls := Function.update (fun u => (q.calls u).wake) t .idle }

/-- `pop_head` of the node `n` at the address `h`, which is deleted at the end of the call. -/
def pop (t : I) (h : A) (n : node A T) : threadsafe_queue A T I :=
  { q.setCall t .idle with
    nodes := Function.update q.nodes h none
    head := n.next
    head_mutex := none
    popped := q.popped ++ [n.data] }

/-- What the threads do. -/
inductive Action (A T I : Type*)
  | call (t : I) (c : QueueCall T)
  | link (t : I) (p : A)
  | notify_all (t : I)
  | compare (t : I)
  | park (t : I)
  | wake (t : I)
  | pop_head (t : I)
  | empty (t : I)

/-- The steps. `empty` compares under both locks and changes nothing. -/
def step : Action A T I → Option (threadsafe_queue A T I)
  | .call t c =>
    match q.calls t with
    | .idle => if c.starts then some (q.setCall t c) else none
    | _ => none
  | .link t p =>
    match q.calls t with
    | .push new_value =>
      if (q.nodes p).isNone ∧ (q.nodes q.tail).isSome then some (q.link t p new_value) else none
    | _ => none
  | .notify_all t =>
    match q.calls t with
    | .notify => some (q.notify_all t)
    | _ => none
  | .compare t =>
    if q.head_mutex.isSome then none
    else
      match q.calls t with
      | .try_pop byValue =>
        if q.head = some q.tail then some (q.setCall t .idle)
        else some { q.setCall t (.pop_head false byValue) with head_mutex := some t }
      | .wait_and_pop byValue =>
        if q.head = some q.tail then
          some { q.setCall t (.blocking byValue) with head_mutex := some t }
        else some { q.setCall t (.pop_head true byValue) with head_mutex := some t }
      | _ => none
  | .park t =>
    match q.calls t with
    | .blocking byValue => some { q.setCall t (.parked byValue) with head_mutex := none }
    | _ => none
  | .wake t =>
    match q.calls t with
    | .parked byValue => some (q.setCall t (.wait_and_pop byValue))
    | _ => none
  | .pop_head t =>
    match q.calls t with
    | .pop_head _ byValue =>
      q.head.bind fun h => (q.nodes h).bind fun n =>
        if byValue = true ∧ n.data.isNone then none else some (q.pop t h n)
    | _ => none
  | .empty t =>
    match q.calls t with
    | .idle => if q.head_mutex.isSome then none else some q
    | _ => none

/-! ### What a step can do -/

/-- The transitions, one constructor for each branch of the code. -/
inductive Moves : Action A T I → threadsafe_queue A T I → Prop
  | call {t c} (hidle : q.calls t = .idle) (hstarts : c.starts = true) :
      Moves (.call t c) (q.setCall t c)
  | link {t p new_value} (hcall : q.calls t = .push new_value) (hfree : q.nodes p = none)
      (hlive : (q.nodes q.tail).isSome = true) : Moves (.link t p) (q.link t p new_value)
  | notify_all {t} (hcall : q.calls t = .notify) : Moves (.notify_all t) (q.notify_all t)
  | tryEmpty {t byValue} (hcall : q.calls t = .try_pop byValue) (hmutex : q.head_mutex = none)
      (hempty : q.head = some q.tail) : Moves (.compare t) (q.setCall t .idle)
  | tryFound {t byValue} (hcall : q.calls t = .try_pop byValue) (hmutex : q.head_mutex = none)
      (hfound : q.head ≠ some q.tail) :
      Moves (.compare t) { q.setCall t (.pop_head false byValue) with head_mutex := some t }
  | waitEmpty {t byValue} (hcall : q.calls t = .wait_and_pop byValue) (hmutex : q.head_mutex = none)
      (hempty : q.head = some q.tail) :
      Moves (.compare t) { q.setCall t (.blocking byValue) with head_mutex := some t }
  | waitFound {t byValue} (hcall : q.calls t = .wait_and_pop byValue) (hmutex : q.head_mutex = none)
      (hfound : q.head ≠ some q.tail) :
      Moves (.compare t) { q.setCall t (.pop_head true byValue) with head_mutex := some t }
  | park {t byValue} (hcall : q.calls t = .blocking byValue) :
      Moves (.park t) { q.setCall t (.parked byValue) with head_mutex := none }
  | wake {t byValue} (hcall : q.calls t = .parked byValue) :
      Moves (.wake t) (q.setCall t (.wait_and_pop byValue))
  | pop_head {t waits byValue h n} (hcall : q.calls t = .pop_head waits byValue)
      (hhead : q.head = some h) (hnode : q.nodes h = some n) : Moves (.pop_head t) (q.pop t h n)
  | empty {t} (hidle : q.calls t = .idle) (hmutex : q.head_mutex = none) : Moves (.empty t) q

variable {q} {q' : threadsafe_queue A T I} {a : Action A T I}

private theorem moves_compare {t : I} (h : q.step (.compare t) = some q') :
    Moves q (.compare t) q' := by
  have hmutex : q.head_mutex = none := by
    by_contra hne
    simp [step, Option.isSome_iff_ne_none.mpr hne] at h
  simp only [step, hmutex, Option.isSome_none, Bool.false_eq_true, if_false] at h
  split at h
  · rename_i byValue hcall
    split_ifs at h with hempty
    · obtain rfl := Option.some.inj h
      exact .tryEmpty hcall hmutex hempty
    · obtain rfl := Option.some.inj h
      exact .tryFound hcall hmutex hempty
  · rename_i byValue hcall
    split_ifs at h with hempty
    · obtain rfl := Option.some.inj h
      exact .waitEmpty hcall hmutex hempty
    · obtain rfl := Option.some.inj h
      exact .waitFound hcall hmutex hempty
  · exact absurd h (by simp)

private theorem moves_pop_head {t : I} (h : q.step (.pop_head t) = some q') :
    Moves q (.pop_head t) q' := by
  simp only [step] at h
  split at h
  · rename_i waits byValue hcall
    obtain ⟨a, hhead, h⟩ := Option.bind_eq_some_iff.mp h
    obtain ⟨n, hnode, h⟩ := Option.bind_eq_some_iff.mp h
    split_ifs at h
    obtain rfl := Option.some.inj h
    exact .pop_head hcall hhead hnode
  · exact absurd h (by simp)

theorem moves_of_step (h : q.step a = some q') : Moves q a q' := by
  cases a with
  | compare t => exact moves_compare h
  | pop_head t => exact moves_pop_head h
  | call t c =>
    simp only [step] at h
    split at h
    · rename_i hidle
      split_ifs at h with hstarts
      obtain rfl := Option.some.inj h
      exact .call hidle hstarts
    · exact absurd h (by simp)
  | link t p =>
    simp only [step] at h
    split at h
    · rename_i new_value hcall
      split_ifs at h with hlink
      obtain rfl := Option.some.inj h
      exact .link hcall (Option.isNone_iff_eq_none.mp hlink.1) hlink.2
    · exact absurd h (by simp)
  | notify_all t =>
    simp only [step] at h
    split at h
    · rename_i hcall
      obtain rfl := Option.some.inj h
      exact .notify_all hcall
    · exact absurd h (by simp)
  | park t =>
    simp only [step] at h
    split at h
    · rename_i byValue hcall
      obtain rfl := Option.some.inj h
      exact .park hcall
    · exact absurd h (by simp)
  | wake t =>
    simp only [step] at h
    split at h
    · rename_i byValue hcall
      obtain rfl := Option.some.inj h
      exact .wake hcall
    · exact absurd h (by simp)
  | empty t =>
    simp only [step] at h
    split at h
    · rename_i hidle
      split_ifs at h with hsome
      obtain rfl := Option.some.inj h
      exact .empty hidle (by simpa using hsome)
    · exact absurd h (by simp)

end Steps

/-! ### The linked list -/

section Nodes

variable (q : threadsafe_queue A T I)

/-- The link and the value at an address, null where there is no node. -/
def nextOf (a : A) : Option A := (q.nodes a).bind (·.next)

def dataOf (a : A) : Option T := (q.nodes a).bind (·.data)

end Nodes

/-- The chain of nodes from `head` up to `tail`: what was popped and what is in it is what was
pushed. -/
def HasChain (q : threadsafe_queue A T I) (chain : List A) : Prop :=
  LinkedSegment q.nextOf q.tail q.head chain ∧ q.popped ++ chain.map q.dataOf = q.pushed.map some

/-- What the comparison of a thread in front of `pop_head` has established. -/
def Checked (q : threadsafe_queue A T I) : QueueCall T → Prop
  | .pop_head _ _ => q.head ≠ some q.tail
  | _ => True

/-- Every thread that is in a section under `head_mutex` owns it. -/
def HeldBy (mutex : Option I) (calls : I → QueueCall T) : Prop :=
  ∀ t, (calls t).holds = true → mutex = some t

/-- The linked list, and what the threads in a section under `head_mutex` know of it. -/
structure Linked (q : threadsafe_queue A T I) : Prop where
  list : ∃ chain, q.HasChain chain
  tail_live : (q.nodes q.tail).isSome = true
  locked : HeldBy q.head_mutex q.calls
  checked : ∀ t, q.Checked (q.calls t)

/-! ### Who holds the mutex -/

namespace HeldBy

variable {mutex : Option I} {calls : I → QueueCall T} {t u : I} {c : QueueCall T}

theorem eq (h : HeldBy mutex calls) (ht : (calls t).holds = true) (hu : (calls u).holds = true) :
    u = t :=
  Option.some.inj ((h u hu).symm.trans (h t ht))

theorem wake (h : HeldBy mutex calls) : HeldBy mutex fun u => (calls u).wake :=
  fun u hu => h u (by rwa [QueueCall.holds_wake] at hu)

variable [DecidableEq I]

/-- After a call that holds nothing, another one holds what it held before. -/
theorem holds_of_update (hc : c.holds = false) (hu : (Function.update calls t c u).holds = true) :
    u ≠ t ∧ (calls u).holds = true := by
  rcases eq_or_ne u t with rfl | hne
  · rw [Function.update_self, hc] at hu
    exact absurd hu Bool.false_ne_true
  · rw [Function.update_of_ne hne] at hu
    exact ⟨hne, hu⟩

theorem keep (h : HeldBy mutex calls) (hc : c.holds = false) :
    HeldBy mutex (Function.update calls t c) :=
  fun u hu => h u (holds_of_update hc hu).2

private theorem acquire (h : HeldBy none calls) : HeldBy (some t) (Function.update calls t c) := by
  intro u hu
  rcases eq_or_ne u t with rfl | hne
  · rfl
  · rw [Function.update_of_ne hne] at hu
    exact absurd (h u hu) (by simp)

theorem release (h : HeldBy mutex calls) (ht : (calls t).holds = true) (hc : c.holds = false) :
    HeldBy none (Function.update calls t c) := by
  intro u hu
  obtain ⟨hne, hu⟩ := holds_of_update hc hu
  exact absurd (h.eq ht hu) hne

end HeldBy

/-! ### The steps keep the list -/

section List

variable {q : threadsafe_queue A T I} {chain : List A} {t : I} {p h : A} {v : T} {n : node A T}

theorem HasChain.live (hq : q.HasChain chain) {b : A} (hb : b ∈ chain) :
    (q.nodes b).isSome = true :=
  Option.isSome_of_isSome_bind (hq.1.isSome_next hb)

theorem HasChain.isSome_head (hq : q.HasChain chain) : q.head.isSome = true := hq.1.isSome_ptr

/-- The first node is live, whether it is the dummy node or not. -/
theorem HasChain.head_live (hq : q.HasChain chain) (htail : (q.nodes q.tail).isSome = true)
    (hhead : q.head = some h) : (q.nodes h).isSome = true := by
  rcases eq_or_ne h q.tail with rfl | hne
  · exact htail
  · obtain ⟨hseg, -⟩ := hq
    rw [hhead] at hseg
    obtain ⟨rest, -, hrest⟩ := hseg.exists_cons hne
    exact Option.isSome_of_isSome_bind hrest.isSome_ptr

variable [DecidableEq A] [DecidableEq I]

/-- A push puts the old dummy node, with the new value, at the end of the chain. -/
theorem HasChain.link (hq : q.HasChain chain) (hfree : q.nodes p = none)
    (htail : (q.nodes q.tail).isSome = true) : (q.link t p v).HasChain (chain ++ [q.tail]) := by
  have hne : q.tail ≠ p := by
    rintro rfl
    simp [hfree] at htail
  have hnot : p ∉ chain := fun hp => by simpa [hfree] using hq.live hp
  have hlast : (q.link t p v).nodes q.tail = some ⟨some v, some p⟩ := by
    simp [threadsafe_queue.link, Function.update_of_ne hne]
  have hsame : ∀ b ∈ chain, (q.link t p v).nodes b = q.nodes b := fun b hb => by
    have hbp : b ≠ p := fun heq => hnot (heq ▸ hb)
    have hbt : b ≠ q.tail := fun heq => hq.1.stop_notMem (heq ▸ hb)
    simp [threadsafe_queue.link, Function.update_of_ne hbp, Function.update_of_ne hbt]
  obtain ⟨hseg, hvalues⟩ := hq
  constructor
  · have hkept : LinkedSegment (q.link t p v).nextOf q.tail q.head chain :=
      hseg.congr fun b hb => by simp only [nextOf, hsame b hb]
    have hnext : (q.link t p v).nextOf q.tail = some p := by simp [nextOf, hlast]
    exact hkept.snoc hnext hne hnot
  · have hdata : chain.map (q.link t p v).dataOf = chain.map q.dataOf :=
      List.map_congr_left fun b hb => by simp only [dataOf, hsame b hb]
    have hnew : (q.link t p v).dataOf q.tail = some v := by simp [dataOf, hlast]
    rw [List.map_append, hdata, List.map_singleton, hnew, ← List.append_assoc]
    show (q.popped ++ chain.map q.dataOf) ++ [some v] = (q.pushed ++ [v]).map some
    rw [hvalues, List.map_append, List.map_singleton]

/-- A pop takes the first node off the chain. -/
theorem HasChain.pop (hq : q.HasChain chain) (hhead : q.head = some h) (hnode : q.nodes h = some n)
    (hne : h ≠ q.tail) : ∃ rest, (q.pop t h n).HasChain rest := by
  obtain ⟨hseg, hvalues⟩ := hq
  rw [hhead] at hseg
  obtain ⟨rest, rfl, hrest⟩ := hseg.exists_cons hne
  have hnot : h ∉ rest := (List.nodup_cons.mp hseg.nodup).1
  have hsame : ∀ b ∈ rest, (q.pop t h n).nodes b = q.nodes b := fun b hb =>
    Function.update_of_ne (by rintro rfl; exact hnot hb) _ _
  refine ⟨rest, ?_, ?_⟩
  · have hnext : q.nextOf h = n.next := by simp [nextOf, hnode]
    rw [hnext] at hrest
    exact hrest.congr fun b hb => by simp only [nextOf, hsame b hb]
  · have hdata : rest.map (q.pop t h n).dataOf = rest.map q.dataOf :=
      List.map_congr_left fun b hb => by simp only [dataOf, hsame b hb]
    have hfirst : q.dataOf h = n.data := by simp [dataOf, hnode]
    rw [hdata]
    show (q.popped ++ [n.data]) ++ rest.map q.dataOf = q.pushed.map some
    rw [← hvalues, List.map_cons, hfirst, List.append_assoc, List.singleton_append]

end List

/-! ### The invariant -/

section Checked

variable {q : threadsafe_queue A T I} {t : I} {p : A} {v : T} {c : QueueCall T}

private theorem checked_of_not_holds (hc : c.holds = false) : q.Checked c := by
  cases c with
  | pop_head waits byValue => exact absurd hc (by simp [QueueCall.holds])
  | _ => trivial

theorem Checked.wake (h : q.Checked c) : q.Checked c.wake := by
  cases c with
  | parked byValue => trivial
  | _ => exact h

variable [DecidableEq I]

/-- The tail that a push sets is not the head: the address of the new node was free. -/
theorem Checked.link [DecidableEq A] (h : q.Checked c) (hhead : q.head ≠ some p) :
    (q.link t p v).Checked c := by
  cases c with
  | pop_head waits byValue => exact hhead
  | _ => trivial

/-- A new call of one thread. -/
theorem checked_update {calls : I → QueueCall T} (hc : q.Checked c)
    (hcalls : ∀ u, u ≠ t → q.Checked (calls u)) (u : I) :
    q.Checked (Function.update calls t c u) := by
  rcases eq_or_ne u t with rfl | hne
  · rwa [Function.update_self]
  · rw [Function.update_of_ne hne]
    exact hcalls u hne

/-- A new call of one thread, and maybe another owner of the mutex. -/
theorem Linked.setCall (h : q.Linked) {mutex : Option I} (hc : q.Checked c)
    (hlocked : HeldBy mutex (Function.update q.calls t c)) :
    Linked { q.setCall t c with head_mutex := mutex } where
  list := h.list
  tail_live := h.tail_live
  locked := hlocked
  checked := checked_update hc fun u _ => h.checked u

end Checked

section Invariant

variable {q q' : threadsafe_queue A T I} {a : Action A T I}

/-- A thread in front of its `pop_head` does so on another node than the dummy one. -/
theorem Linked.found (hq : q.Linked) {t : I} {waits byValue : Bool}
    (hcall : q.calls t = .pop_head waits byValue) : q.head ≠ some q.tail := by
  have hchecked := hq.checked t
  rwa [hcall] at hchecked

variable [DecidableEq A]

theorem linked_new (dummy : A) : Linked (new dummy : threadsafe_queue A T I) where
  list := ⟨[], .nil, rfl⟩
  tail_live := by simp [new]
  locked := fun _ ht => absurd ht Bool.false_ne_true
  checked := fun _ => trivial

variable [DecidableEq I]

theorem Linked.moves (hq : q.Linked) (hm : Moves q a q') : q'.Linked := by
  cases hm with
  | @call t c hidle hstarts =>
    have hc := QueueCall.holds_of_starts hstarts
    exact hq.setCall (checked_of_not_holds hc) (hq.locked.keep hc)
  | @link t p new_value hcall hfree hlive =>
    obtain ⟨chain, hchain⟩ := hq.list
    have hhead : q.head ≠ some p := fun heq => by
      simpa [hfree] using hchain.head_live hlive heq
    exact ⟨⟨_, hchain.link hfree hlive⟩, by simp [threadsafe_queue.link], hq.locked.keep rfl,
      checked_update trivial fun u _ => (hq.checked u).link hhead⟩
  | @notify_all t hcall =>
    exact ⟨hq.list, hq.tail_live, hq.locked.wake.keep rfl,
      checked_update trivial fun u _ => (hq.checked u).wake⟩
  | tryEmpty hcall hmutex hempty => exact hq.setCall trivial (hq.locked.keep rfl)
  | tryFound hcall hmutex hfound => exact hq.setCall hfound (hmutex ▸ hq.locked).acquire
  | waitEmpty hcall hmutex hempty => exact hq.setCall trivial (hmutex ▸ hq.locked).acquire
  | waitFound hcall hmutex hfound => exact hq.setCall hfound (hmutex ▸ hq.locked).acquire
  | park hcall => exact hq.setCall trivial (hq.locked.release (by rw [hcall]; rfl) rfl)
  | wake hcall => exact hq.setCall trivial (hq.locked.keep rfl)
  | @pop_head t waits byValue h n hcall hhead hnode =>
    obtain ⟨chain, hchain⟩ := hq.list
    have ht : (q.calls t).holds = true := by
      rw [hcall]
      rfl
    have hne : h ≠ q.tail := by
      rintro rfl
      exact hq.found hcall hhead
    have hlive : (Function.update q.nodes h none q.tail).isSome = true := by
      rw [Function.update_of_ne hne.symm]
      exact hq.tail_live
    refine ⟨hchain.pop hhead hnode hne, hlive, hq.locked.release ht rfl,
      checked_update trivial fun u hother => checked_of_not_holds ?_⟩
    by_contra hu
    exact hother (hq.locked.eq ht (Bool.of_not_eq_false hu))
  | empty hidle hmutex => exact hq

theorem Linked.of_reaches {dummy : A}
    (h : Transition.Reaches (Transition.ofStep step) Transition.anyLabel (new dummy) q) :
    q.Linked :=
  h.invariant (linked_new dummy) fun _ _ _ hinv _ hstep => hinv.moves (moves_of_step hstep)

/-- A `pop_head` finds a node with a value: it uses no null or dangling pointer. -/
theorem Linked.isSome_pop_head (hq : q.Linked) {t : I} {waits byValue : Bool}
    (hcall : q.calls t = .pop_head waits byValue) : (q.step (.pop_head t)).isSome = true := by
  obtain ⟨chain, hchain⟩ := hq.list
  obtain ⟨h, hhead⟩ := Option.isSome_iff_exists.mp hchain.isSome_head
  obtain ⟨n, hnode⟩ := Option.isSome_iff_exists.mp (hchain.head_live hq.tail_live hhead)
  have hne : h ≠ q.tail := by
    rintro rfl
    exact hq.found hcall hhead
  have hdata : n.data.isSome = true := by
    obtain ⟨hseg, hvalues⟩ := hchain
    rw [hhead] at hseg
    obtain ⟨rest, rfl, -⟩ := hseg.exists_cons hne
    have hmem : n.data ∈ q.pushed.map some := by
      rw [← hvalues]
      simp [dataOf, hnode]
    obtain ⟨v, -, hv⟩ := List.mem_map.mp hmem
    simp [← hv]
  have hvalue : ¬ (byValue = true ∧ n.data.isNone = true) := fun hnull => by
    simp [Option.isNone_iff_eq_none.mp hnull.2] at hdata
  simp only [step, hcall, hhead, hnode, Option.bind_some, if_neg hvalue, Option.isSome_some]

/-- For every interleaving of the calls of any number of threads: the links lead from `head` to
`tail`, the values popped so far followed by those in the nodes from `head` up to `tail` are the
values pushed, in the order of the sections under `tail_mutex`, and no `pop_head` runs on the dummy
node. -/
theorem fifo {dummy : A}
    (h : Transition.Reaches (Transition.ofStep step) Transition.anyLabel (new dummy) q) :
    (∃ chain, LinkedSegment q.nextOf q.tail q.head chain ∧
      q.popped ++ chain.map q.dataOf = q.pushed.map some) ∧
    ∀ t waits byValue, q.calls t = .pop_head waits byValue → q.head ≠ some q.tail := by
  have hlinked := Linked.of_reaches h
  exact ⟨hlinked.list, fun t waits byValue hcall => hlinked.found hcall⟩

/-- One value is popped by a waiter while a second one is pushed. -/
theorem fifo_two : ∃ q : threadsafe_queue ℕ ℕ Bool, q.pushed = [7, 8] ∧ q.popped = [some 7] ∧
    ∃ chain : List ℕ, q.popped ++ chain.map q.dataOf = q.pushed.map some := by
  obtain ⟨q, hreach, hpushed, hpopped⟩ := Transition.Reaches.exists_of_run
    (C := Transition.anyLabel) (s := (new 0 : threadsafe_queue ℕ ℕ Bool))
    (P := fun q => q.pushed = [7, 8] ∧ q.popped = [some 7]) step
    [.call true (.wait_and_pop true), .compare true, .call false (.push 7), .park true,
      .link false 1, .notify_all false, .compare true, .call false (.push 8), .link false 2,
      .pop_head true] (by decide +kernel)
  obtain ⟨⟨chain, -, hvalues⟩, -⟩ := fifo hreach
  exact ⟨q, hpushed, hpopped, chain, hvalues⟩

end Invariant

end threadsafe_queue

end TinyMuduo
