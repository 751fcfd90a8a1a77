import Mathlib.Data.List.Basic
import Mathlib.Tactic.SplitIfs

/-!
# Properties of the events of a log

A log is a list of events, the latest one last. `Log.Holds Q log` says that every event of the log
has the property `Q` with respect to the events before it.

## Main results

* `Log.holds_append`, `Log.Holds.append_of_notMem`: what has to be shown when events are logged.
* `Log.count_ite_singleton_nil`, `Log.count_ite_nil_singleton`: counting other events than those
  that are logged under a condition.
-/

namespace Log

variable {E : Type*} {Q : List E → E → Prop} {log new : List E}

/-- Every event has the property `Q` with respect to the events before it. -/
def Holds (Q : List E → E → Prop) (log : List E) : Prop :=
  ∀ pre e post, log = pre ++ e :: post → Q pre e

@[simp] theorem holds_nil : Holds Q [] := by
  intro pre e post h
  simp at h

@[simp] theorem holds_cons {e : E} :
    Holds Q (e :: log) ↔ Q [] e ∧ Holds (fun pre => Q (e :: pre)) log := by
  constructor
  · exact fun h => ⟨h [] e log rfl, fun pre e' post hlog => h (e :: pre) e' post (by simp [hlog])⟩
  · rintro ⟨h0, hrest⟩ pre e' post hlog
    cases pre with
    | nil =>
      obtain ⟨rfl, -⟩ := List.cons.inj hlog
      exact h0
    | cons x pre =>
      obtain ⟨rfl, htail⟩ := List.cons.inj hlog
      exact hrest pre e' post htail

/-- Events logged later see the earlier ones before them. -/
theorem holds_append :
    Holds Q (log ++ new) ↔ Holds Q log ∧ Holds (fun pre => Q (log ++ pre)) new := by
  induction log generalizing Q with
  | nil => simp
  | cons e log ih => simp [ih, and_assoc]

/-- A property of one event is not affected by other events. -/
theorem Holds.append_of_notMem {x : E} {R : List E → Prop}
    (h : Holds (fun pre e => e = x → R pre) log) (hx : x ∉ new) :
    Holds (fun pre e => e = x → R pre) (log ++ new) := by
  refine holds_append.mpr ⟨h, ?_⟩
  rintro pre e post rfl rfl
  exact absurd (List.mem_append_right _ List.mem_cons_self) hx

/-! ### Events logged under a condition -/

section Condition

variable [DecidableEq E] {c : Prop} [Decidable c] {e x : E}

omit [DecidableEq E] in
@[simp] theorem holds_ite_singleton_nil :
    Holds Q (if c then [x] else []) ↔ (c → Q [] x) := by
  split_ifs with h <;> simp [h]

omit [DecidableEq E] in
@[simp] theorem holds_ite_nil_singleton :
    Holds Q (if c then [] else [x]) ↔ (¬ c → Q [] x) := by
  split_ifs with h <;> simp [h]

@[simp] theorem count_ite_singleton_nil (h : x ≠ e) : (if c then [x] else []).count e = 0 := by
  split_ifs <;> simp [h]

@[simp] theorem count_ite_nil_singleton (h : x ≠ e) : (if c then [] else [x]).count e = 0 := by
  split_ifs <;> simp [h]

end Condition

end Log
