import Mathlib.Data.Fintype.Basic
import TinyMuduo.Base.Blockqueue

/-!
# Notifications of the queue

A waiter of `threadsafe_queue` compares `head` with `tail` under `head_mutex`, but a push changes
`tail` under the other mutex, and notifies under none. Between the comparison of a waiter and its
parking a push may therefore both change `tail` and notify: nothing wakes the waiter for this push.

A consumer is *stranded* if it is parked although the queue has a value, no push is about to
notify, and no other consumer is awake in `wait_and_pop`. This is excluded in the runs in which a
waiter only parks while its predicate is still false, or while some push is about to notify.

## Main definitions

* `threadsafe_queue.Stranded`.
* `threadsafe_queue.ParksInTime`: the guard of the runs.

## Main results

* `threadsafe_queue.not_stranded`: no guarded run reaches a stranded consumer.
* `threadsafe_queue.stranded_of_park`: one step outside of the guard strands the last waiter.
-/

namespace TinyMuduo

namespace QueueCall

variable {T : Type*}

/-- A consumer that is awake in `wait_and_pop`. -/
def awake : QueueCall T → Bool
  | wait_and_pop _ | blocking _ | pop_head true _ => true
  | _ => false

private theorem wake_ne_parked (call : QueueCall T) (byValue : Bool) :
    call.wake ≠ parked byValue := by
  cases call <;> simp [wake]

end QueueCall

namespace threadsafe_queue

variable {A T I : Type*}

section Definitions

variable (q : threadsafe_queue A T I)

/-- A consumer is parked, the queue has a value, and nobody is going to wake the consumer. -/
def Stranded : Prop :=
  (∃ t byValue, q.calls t = .parked byValue) ∧ q.head ≠ some q.tail ∧
    (∀ u, q.calls u ≠ .notify) ∧ ∀ u, (q.calls u).awake = false

/-- A waiter parks while the queue is still empty, or while some push is between its section under
`tail_mutex` and its `notify_all`. -/
def ParksInTime : Action A T I → Prop
  | .park _ => q.head = some q.tail ∨ ∃ u, q.calls u = .notify
  | _ => True

/-- Whoever is parked has nothing to pop, or is about to be notified. -/
def Covered : Prop :=
  ∀ t byValue, q.calls t = .parked byValue → q.head = some q.tail ∨ ∃ u, q.calls u = .notify

instance [Fintype I] [DecidableEq A] [DecidableEq T] : DecidablePred q.ParksInTime
  | .park _ => inferInstanceAs (Decidable (q.head = some q.tail ∨ ∃ u, q.calls u = .notify))
  | .call _ _ | .link _ _ | .notify_all _ | .compare _ | .wake _ | .pop_head _ | .empty _ =>
    .isTrue trivial

instance [Fintype I] [DecidableEq A] [DecidableEq T] : Decidable q.Stranded :=
  inferInstanceAs (Decidable ((∃ t byValue, q.calls t = .parked byValue) ∧
    q.head ≠ some q.tail ∧ (∀ u, q.calls u ≠ .notify) ∧ ∀ u, (q.calls u).awake = false))

end Definitions

/-! ### Who is parked and who notifies after a step -/

section Calls

variable [DecidableEq I] {calls : I → QueueCall T} {t u : I} {c : QueueCall T} {byValue : Bool}

private theorem exists_notify_update (h : ∃ u, calls u = .notify) (ht : calls t ≠ .notify) :
    ∃ u, Function.update calls t c u = .notify := by
  obtain ⟨u, hu⟩ := h
  have hne : u ≠ t := fun heq => ht (heq ▸ hu)
  exact ⟨u, by rwa [Function.update_of_ne hne]⟩

private theorem parked_of_update (hc : ∀ b, c ≠ .parked b)
    (hu : Function.update calls t c u = .parked byValue) : calls u = .parked byValue := by
  rcases eq_or_ne u t with rfl | hne
  · rw [Function.update_self] at hu
    exact absurd hu (hc byValue)
  · rwa [Function.update_of_ne hne] at hu

end Calls

variable [DecidableEq I] {q q' : threadsafe_queue A T I} {a : Action A T I}

/-- Calls that neither park nor end a notification do not matter. -/
theorem Covered.setCall (h : q.Covered) {t : I} {c : QueueCall T} {mutex : Option I}
    (hc : ∀ b, c ≠ .parked b) (ht : q.calls t ≠ .notify) :
    Covered { q.setCall t c with head_mutex := mutex } := fun u byValue hu =>
  (h u byValue (parked_of_update hc hu)).imp_right fun hn => exists_notify_update hn ht

variable [DecidableEq A]

theorem Covered.moves (h : q.Covered) (hlinked : q.Linked) (hm : Moves q a q')
    (hc : q.ParksInTime a) : q'.Covered := by
  cases hm with
  | @call t c hidle hstarts =>
    refine h.setCall (fun b => ?_) (by simp [hidle])
    rintro rfl
    exact absurd hstarts Bool.false_ne_true
  | @link t p v hcall hfree hlive =>
    exact fun _ _ _ => .inr ⟨t, Function.update_self _ _ _⟩
  | @notify_all t hcall =>
    intro u byValue hu
    change Function.update (fun v => (q.calls v).wake) t .idle u = .parked byValue at hu
    exact absurd (parked_of_update (by simp) hu) (QueueCall.wake_ne_parked _ byValue)
  | @park t byValue hcall =>
    exact fun _ _ _ => hc.imp_right fun hn => exists_notify_update hn (by simp [hcall])
  | @pop_head t waits byValue b n hcall hhead hnode =>
    intro u b hu
    have hparked : q.calls u = .parked b := parked_of_update (by simp) hu
    have hnotify := (h u b hparked).resolve_left (hlinked.found hcall)
    exact .inr (exists_notify_update hnotify (by simp [hcall]))
  | tryEmpty hcall => exact h.setCall (by simp) (by simp [hcall])
  | tryFound hcall => exact h.setCall (by simp) (by simp [hcall])
  | waitEmpty hcall => exact h.setCall (by simp) (by simp [hcall])
  | waitFound hcall => exact h.setCall (by simp) (by simp [hcall])
  | wake hcall => exact h.setCall (by simp) (by simp [hcall])
  | empty => exact h

/-- In every run in which a waiter parks only while the queue is still empty or some push is about
to notify, no consumer is stranded. -/
theorem not_stranded {dummy : A}
    (h : Transition.Reaches (Transition.ofStep step) ParksInTime (new dummy) q) :
    ¬ q.Stranded := by
  obtain ⟨-, hcovered⟩ : q.Linked ∧ q.Covered := by
    refine h.invariant (I := fun q => q.Linked ∧ q.Covered)
      ⟨linked_new dummy, fun _ _ ht => absurd ht (by simp [new])⟩ ?_
    rintro q a q' ⟨hlinked, hcovered⟩ hc hstep
    have hm := moves_of_step hstep
    exact ⟨hlinked.moves hm, hcovered.moves hlinked hm hc⟩
  rintro ⟨⟨t, byValue, ht⟩, hvalue, hnotify, -⟩
  rcases hcovered t byValue ht with hempty | ⟨u, hu⟩
  · exact hvalue hempty
  · exact hnotify u hu

/-- A consumer parks, a push wakes it, and it pops the value. -/
theorem not_stranded_woken : ∃ q : threadsafe_queue ℕ ℕ Bool, q.popped = [some 7] ∧
    ¬ q.Stranded := by
  obtain ⟨q, hreach, hpopped⟩ := Transition.Reaches.exists_of_run (C := ParksInTime)
    (s := (new 0 : threadsafe_queue ℕ ℕ Bool)) (P := fun q => q.popped = [some 7]) step
    [.call true (.wait_and_pop true), .compare true, .call false (.push 7), .link false 1,
      .park true, .notify_all false, .compare true, .pop_head true] (by decide +kernel)
  exact ⟨q, hpopped, not_stranded hreach⟩

/-- A waiter that parks outside of the guard is stranded if no other consumer is awake. -/
theorem stranded_of_park {t : I} (hstep : q.step (.park t) = some q')
    (hc : ¬ q.ParksInTime (.park t)) (hasleep : ∀ u, u ≠ t → (q.calls u).awake = false) :
    q'.Stranded := by
  obtain ⟨hvalue, hnotify⟩ := not_or.mp hc
  cases moves_of_step hstep with
  | @park t byValue hcall =>
    refine ⟨⟨t, byValue, Function.update_self _ _ _⟩, hvalue, fun u hu => ?_, fun u => ?_⟩
    · rcases eq_or_ne u t with rfl | hne
      · exact absurd ((Function.update_self _ _ _).symm.trans hu) (by simp)
      · exact hnotify ⟨u, (Function.update_of_ne hne _ _).symm.trans hu⟩
    · show (Function.update q.calls t (.parked byValue) u).awake = false
      rcases eq_or_ne u t with rfl | hne
      · rw [Function.update_self]
        rfl
      · rw [Function.update_of_ne hne]
        exact hasleep u hne

/-- A push between the comparison of a waiter and its parking, with its notification, strands it. -/
theorem exists_stranded : ∃ q : threadsafe_queue ℕ ℕ Bool,
    Transition.Reaches (Transition.ofStep step) Transition.anyLabel (new 0) q ∧ q.Stranded :=
  Transition.Reaches.exists_of_run (P := fun q => q.Stranded) step
    [.call true (.wait_and_pop true), .compare true, .call false (.push 7), .link false 1,
      .notify_all false, .park true] (by decide +kernel)

end threadsafe_queue

end TinyMuduo
