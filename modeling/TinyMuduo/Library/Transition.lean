import Mathlib.Logic.Relation
import Mathlib.Tactic.SplitIfs

/-!
# Runs of labelled transition systems

A labelled transition system is a relation `R s a t`: from the state `s`, the label `a` leads to
the state `t`. A *guard* `C s a` restricts the labels that a run may use in a state; a run all of
whose steps meet the guard is a path of `Guarded R C`. The states reached by such runs are
`Reaches R C s`.

## Main definitions

* `Transition.Guarded`, `Transition.Reaches`: one guarded step, and the states reached by runs.
* `Transition.ofStep`, `Transition.run`: the transition system of a partial step function, and its
  execution along a list of labels.

## Main results

* `Transition.Reaches.invariant`, `Transition.Reaches.induct`: a property of the first state that
  every guarded step preserves holds in every state reached; in the second form the step may use
  that its source state is itself reached.
* `Transition.Reaches.map`: a map of states that sends steps to runs sends runs to runs.
* `Transition.Reaches.of_run`, `Transition.Reaches.exists_of_run`: an execution is a run.
-/

namespace Transition

variable {σ τ α β : Type*}

/-- One step along some label that meets the guard in the state it starts from. -/
def Guarded (R : σ → α → σ → Prop) (C : σ → α → Prop) (s t : σ) : Prop :=
  ∃ a, C s a ∧ R s a t

/-- The states reached from `s` by runs all of whose steps meet the guard. -/
def Reaches (R : σ → α → σ → Prop) (C : σ → α → Prop) : σ → σ → Prop :=
  Relation.ReflTransGen (Guarded R C)

/-- The guard that every label meets. -/
def anyLabel : σ → α → Prop := fun _ _ => True

instance (s : σ) (a : α) : Decidable (anyLabel s a) := .isTrue trivial

/-- The transition system of a partial step function. -/
def ofStep (step : σ → α → Option σ) : σ → α → σ → Prop :=
  fun s a t => step s a = some t

/-- The state after the steps of a list of labels, if each one meets the guard where it is used. -/
def run (step : σ → α → Option σ) (C : σ → α → Prop) [∀ s a, Decidable (C s a)] (s : σ) :
    List α → Option σ
  | [] => some s
  | a :: as => if C s a then (step s a).bind fun t => run step C t as else none

namespace Reaches

variable {R : σ → α → σ → Prop} {C D : σ → α → Prop} {s t u : σ}

theorem refl (s : σ) : Reaches R C s s := Relation.ReflTransGen.refl

/-- A run extended by one more step. -/
theorem snoc (h : Reaches R C s t) {a : α} (hC : C t a) (hR : R t a u) : Reaches R C s u :=
  Relation.ReflTransGen.tail h ⟨a, hC, hR⟩

theorem trans (h : Reaches R C s t) (h' : Reaches R C t u) : Reaches R C s u :=
  Relation.ReflTransGen.trans h h'

/-- Induction along a run: the step may use that the state it starts from is reached. -/
theorem induct {I : σ → Prop} (h : Reaches R C s t) (h0 : I s)
    (hstep : ∀ u a v, Reaches R C s u → C u a → R u a v → I u → I v) : I t := by
  induction h with
  | refl => exact h0
  | @tail u v hu huv ih =>
    obtain ⟨a, hC, hR⟩ := huv
    exact hstep u a v hu hC hR ih

/-- The invariant rule: what holds at the start and is preserved by every step holds in every
state reached. -/
theorem invariant {I : σ → Prop} (h : Reaches R C s t) (h0 : I s)
    (hstep : ∀ u a v, I u → C u a → R u a v → I v) : I t :=
  h.induct h0 fun u a v _ hC hR hu => hstep u a v hu hC hR

/-- A weaker guard reaches at least as much. -/
theorem mono (hCD : ∀ u a, C u a → D u a) (h : Reaches R C s t) : Reaches R D s t :=
  h.induct (I := Reaches R D s) (refl s) fun u a _ _ hC hR ih => ih.snoc (hCD u a hC) hR

/-- Simulation: a map that sends every step of a run to a run of another system sends the whole
run to a run of that system. -/
theorem map {R' : τ → β → τ → Prop} {C' : τ → β → Prop} (f : σ → τ) (h : Reaches R C s t)
    (hstep : ∀ u a v, Reaches R C s u → C u a → R u a v → Reaches R' C' (f u) (f v)) :
    Reaches R' C' (f s) (f t) :=
  h.induct (I := fun u => Reaches R' C' (f s) (f u)) (refl _)
    fun u a v hu hC hR ih => ih.trans (hstep u a v hu hC hR)

/-- Executing a step function along a list of labels is a run. -/
theorem of_run {step : σ → α → Option σ} [∀ s a, Decidable (C s a)] :
    (as : List α) → {s : σ} → run step C s as = some t → Reaches (ofStep step) C s t
  | [], s, h => by
    obtain rfl : s = t := by simpa [run] using h
    exact refl s
  | a :: as, s, h => by
    rw [run] at h
    split_ifs at h with hC
    obtain ⟨u, hu, hrest⟩ := Option.bind_eq_some_iff.mp h
    exact ((refl s).snoc hC hu).trans (of_run as hrest)

/-- A run given by its labels, with a property of the state that it reaches. -/
theorem exists_of_run (step : σ → α → Option σ) [∀ s a, Decidable (C s a)] {P : σ → Prop}
    [DecidablePred P] (as : List α) (h : (run step C s as).any (P ·) = true) :
    ∃ t, Reaches (ofStep step) C s t ∧ P t := by
  obtain ⟨t, ht, hP⟩ := (Option.any_eq_true _ _).mp h
  exact ⟨t, of_run as ht, of_decide_eq_true hP⟩

end Reaches

end Transition
