import Mathlib.Data.List.Basic
import Mathlib.Data.Nat.Notation

/-!
# Segments of a linked list

Cells at addresses are linked by a partial function `next`. A *segment* leads from a pointer to a
last cell that it meets for the first time at its end; its chain is the list of the cells in front
of the last one. Since links are a function, a pointer and a last cell have one chain at most, and a
chain has no cell twice.

## Main definitions

* `LinkedSegment`.

## Main results

* `LinkedSegment.unique`, `LinkedSegment.nodup`: the chain of a segment.
* `LinkedSegment.congr`: links of other cells do not matter.
* `LinkedSegment.snoc`: a segment is prolonged behind its last cell.
-/

variable {A : Type*}

/-- The links lead from a pointer through the cells of a chain to the cell `stop`. -/
inductive LinkedSegment (next : A → Option A) (stop : A) : Option A → List A → Prop
  | nil : LinkedSegment next stop (some stop) []
  | cons {a chain} (hne : a ≠ stop) (hrest : LinkedSegment next stop (next a) chain) :
      LinkedSegment next stop (some a) (a :: chain)

namespace LinkedSegment

variable {next next' : A → Option A} {stop stop' : A} {ptr : Option A} {chain chain' : List A}

/-- A pointer has one chain. -/
theorem unique (h : LinkedSegment next stop ptr chain)
    (h' : LinkedSegment next stop ptr chain') : chain = chain' := by
  induction h generalizing chain' with
  | nil =>
    cases h' with
    | nil => rfl
    | cons hne => exact absurd rfl hne
  | cons hne hrest ih =>
    cases h' with
    | nil => exact absurd rfl hne
    | cons _ hrest' => rw [ih hrest']

/-- The segment from a cell of the chain on. -/
theorem suffix (h : LinkedSegment next stop ptr chain) {a : A} (ha : a ∈ chain) :
    ∃ rest, LinkedSegment next stop (some a) (a :: rest) ∧ rest.length < chain.length := by
  induction h with
  | nil => exact absurd ha List.not_mem_nil
  | @cons b chain hne hrest ih =>
    rcases List.mem_cons.mp ha with rfl | ha
    · exact ⟨chain, .cons hne hrest, Nat.lt_succ_self _⟩
    · obtain ⟨rest, hseg, hlt⟩ := ih ha
      exact ⟨rest, hseg, Nat.lt_succ_of_lt hlt⟩

/-- A pointer that a segment starts from is not null. -/
theorem isSome_ptr (h : LinkedSegment next stop ptr chain) : ptr.isSome = true := by
  cases h <;> rfl

/-- Every cell of the chain has a link. -/
theorem isSome_next (h : LinkedSegment next stop ptr chain) {a : A} (ha : a ∈ chain) :
    (next a).isSome = true := by
  obtain ⟨rest, hseg, -⟩ := h.suffix ha
  cases hseg with
  | cons _ hrest => exact hrest.isSome_ptr

theorem stop_notMem (h : LinkedSegment next stop ptr chain) : stop ∉ chain := by
  induction h with
  | nil => exact List.not_mem_nil
  | cons hne _ ih => exact List.not_mem_cons_of_ne_of_not_mem (Ne.symm hne) ih

/-- A chain has no cell twice: behind the second one it would go on as behind the first. -/
theorem nodup (h : LinkedSegment next stop ptr chain) : chain.Nodup := by
  induction h with
  | nil => exact List.nodup_nil
  | @cons a chain hne hrest ih =>
    refine List.nodup_cons.mpr ⟨fun ha => ?_, ih⟩
    obtain ⟨rest, hseg, hlt⟩ := hrest.suffix ha
    have heq := (List.cons.inj (hseg.unique (.cons hne hrest))).2
    rw [heq] at hlt
    exact absurd hlt (Nat.lt_irrefl _)

/-- Links of cells outside of the chain do not matter. -/
theorem congr (h : LinkedSegment next stop ptr chain) (heq : ∀ a ∈ chain, next a = next' a) :
    LinkedSegment next' stop ptr chain := by
  induction h with
  | nil => exact .nil
  | cons hne _ ih =>
    have hrest := ih fun b hb => heq b (List.mem_cons_of_mem _ hb)
    rw [heq _ List.mem_cons_self] at hrest
    exact .cons hne hrest

/-- A segment is prolonged behind its last cell. -/
theorem snoc (h : LinkedSegment next stop ptr chain) (hnext : next stop = some stop')
    (hne : stop ≠ stop') (hnot : stop' ∉ chain) :
    LinkedSegment next stop' ptr (chain ++ [stop]) := by
  induction h with
  | nil =>
    refine .cons hne ?_
    rw [hnext]
    exact .nil
  | cons _ _ ih =>
    obtain ⟨ha, hrest⟩ := not_or.mp (mt List.mem_cons.mpr hnot)
    exact .cons (Ne.symm ha) (ih hrest)

/-- A pointer to another cell than the last one has a chain that starts with this cell. -/
theorem exists_cons {a : A} (h : LinkedSegment next stop (some a) chain) (hne : a ≠ stop) :
    ∃ rest, chain = a :: rest ∧ LinkedSegment next stop (next a) rest := by
  cases h with
  | nil => exact absurd rfl hne
  | cons _ hrest => exact ⟨_, rfl, hrest⟩

end LinkedSegment
