import Mathlib.Data.List.Sort
import Mathlib.Order.Basic

/-!
# Ordered sets with iterators

An ordered set of a linear order is the strictly increasing list of its elements. It offers what a
balanced search tree does: insertion and removal of an element, each saying whether the set has
changed, the first element, the first element that is not below a bound, and iteration in order from
the start.

## Main definitions

* `OrderedSet`, `OrderedSet.insert`, `OrderedSet.erase`, `OrderedSet.begin_`,
  `OrderedSet.lowerBound`.
* `OrderedSet.drop`: the set without its first elements.

## Main results

* `OrderedSet.mem_insert`, `OrderedSet.mem_erase`: the elements after an operation.
* `OrderedSet.toList_insert_perm`, `OrderedSet.toList_erase_perm`: their number.
* `OrderedSet.le_of_begin_eq_some`, `OrderedSet.lowerBound_eq_some`,
  `OrderedSet.lowerBound_eq_none`: what the first elements are.
* `OrderedSet.mem_takeWhile`: the elements at the start that meet a condition.
* `OrderedSet.foldl_erase_take`: erasing the first elements one by one.
-/

/-- A set of elements of a linear order, as the strictly increasing list of its elements. -/
structure OrderedSet (α : Type*) [LinearOrder α] where
  toList : List α
  sorted : toList.Pairwise (· < ·)

namespace OrderedSet

variable {α : Type*} [LinearOrder α]

instance : Membership α (OrderedSet α) := ⟨fun s a => a ∈ s.toList⟩

instance (a : α) (s : OrderedSet α) : Decidable (a ∈ s) :=
  inferInstanceAs (Decidable (a ∈ s.toList))

theorem mem_def {a : α} {s : OrderedSet α} : a ∈ s ↔ a ∈ s.toList := Iff.rfl

/-- The set without elements. -/
def empty : OrderedSet α := ⟨[], List.Pairwise.nil⟩

@[simp] theorem notMem_empty (a : α) : a ∉ (empty : OrderedSet α) := List.not_mem_nil

variable (s : OrderedSet α)

theorem nodup : s.toList.Nodup := s.sorted.imp ne_of_lt

/-- The number of elements. -/
def size : ℕ := s.toList.length

/-- The first element, `none` for the end of the set. -/
def begin_ : Option α := s.toList.head?

/-- The first element that is not below a bound, `none` for the end of the set. -/
def lowerBound (a : α) : Option α := s.toList.find? (a ≤ ·)

/-- Insertion of an element that is not in the set, in a strictly increasing list. -/
theorem pairwise_orderedInsert {a : α} (h : a ∉ s) :
    (s.toList.orderedInsert (· ≤ ·) a).Pairwise (· < ·) := by
  have hle : (s.toList.orderedInsert (· ≤ ·) a).Pairwise (· ≤ ·) :=
    List.Pairwise.orderedInsert a _ (s.sorted.imp le_of_lt)
  have hne : (s.toList.orderedInsert (· ≤ ·) a).Nodup :=
    (List.perm_orderedInsert (· ≤ ·) a s.toList).nodup_iff.mpr (s.nodup.cons h)
  exact (hle.and hne).imp fun hab => lt_of_le_of_ne hab.1 hab.2

/-- The set with an element, and whether the element is new. -/
def insert (a : α) : OrderedSet α × Bool :=
  if h : a ∈ s then (s, false)
  else (⟨s.toList.orderedInsert (· ≤ ·) a, s.pairwise_orderedInsert h⟩, true)

/-- The set without an element, and how many elements were removed. -/
def erase (a : α) : OrderedSet α × ℕ :=
  (⟨s.toList.erase a, s.sorted.sublist List.erase_sublist⟩, if a ∈ s then 1 else 0)

/-- The set without its first `n` elements. -/
def drop (n : ℕ) : OrderedSet α :=
  ⟨s.toList.drop n, s.sorted.sublist (List.drop_sublist n _)⟩

variable {s} {a b : α}

/-! ### Elements -/

@[simp] theorem mem_insert : b ∈ (s.insert a).1 ↔ b = a ∨ b ∈ s := by
  unfold insert
  split_ifs with h
  · exact ⟨.inr, fun hb => hb.elim (fun heq => heq ▸ h) id⟩
  · exact List.mem_orderedInsert (· ≤ ·)

@[simp] theorem insert_snd : (s.insert a).2 = true ↔ a ∉ s := by
  unfold insert
  split_ifs with h <;> simp [h]

@[simp] theorem mem_erase : b ∈ (s.erase a).1 ↔ b ≠ a ∧ b ∈ s :=
  s.nodup.mem_erase_iff

@[simp] theorem erase_snd : (s.erase a).2 = 1 ↔ a ∈ s := by
  unfold erase
  split_ifs with h <;> simp [h]

theorem mem_of_mem_drop {n : ℕ} (h : a ∈ s.drop n) : a ∈ s :=
  List.mem_of_mem_drop h

/-- An element is among the first `n` ones or among the others, and not both. -/
theorem mem_drop_iff {n : ℕ} : a ∈ s.drop n ↔ a ∈ s ∧ a ∉ s.toList.take n := by
  have hnodup : (s.toList.take n ++ s.toList.drop n).Nodup := by
    rw [List.take_append_drop]
    exact s.nodup
  constructor
  · exact fun h => ⟨mem_of_mem_drop h, fun ht => (List.nodup_append.mp hnodup).2.2 a ht a h rfl⟩
  · rintro ⟨hs, ht⟩
    rw [mem_def, ← List.take_append_drop n s.toList, List.mem_append] at hs
    exact hs.resolve_left ht

/-! ### The number of elements -/

theorem toList_insert_perm (h : a ∉ s) : (s.insert a).1.toList.Perm (a :: s.toList) := by
  rw [insert, dif_neg h]
  exact List.perm_orderedInsert _ _ _

theorem toList_erase_perm (h : a ∈ s) : s.toList.Perm (a :: (s.erase a).1.toList) :=
  List.perm_cons_erase h

theorem size_insert_of_notMem (h : a ∉ s) : (s.insert a).1.size = s.size + 1 :=
  (toList_insert_perm h).length_eq

theorem size_erase_of_mem (h : a ∈ s) : (s.erase a).1.size + 1 = s.size :=
  (toList_erase_perm h).length_eq.symm

/-! ### The first elements -/

theorem begin_eq_none : s.begin_ = none ↔ ∀ b, b ∉ s := by
  rw [begin_, List.head?_eq_none_iff, List.eq_nil_iff_forall_not_mem]
  exact Iff.rfl

theorem mem_of_begin_eq_some (h : s.begin_ = some a) : a ∈ s :=
  List.mem_of_mem_head? h

/-- The first element is the least one. -/
theorem le_of_begin_eq_some (h : s.begin_ = some a) (hb : b ∈ s) : a ≤ b := by
  obtain ⟨l, hl⟩ := List.head?_eq_some_iff.mp h
  have hsorted := s.sorted
  rw [mem_def, hl] at hb
  rw [hl, List.pairwise_cons] at hsorted
  rcases List.mem_cons.mp hb with rfl | hb
  · exact le_rfl
  · exact (hsorted.1 b hb).le

/-- The bound is not above the first element that is not below it, and the other elements are below
the bound or not below that one. -/
theorem lowerBound_eq_some (h : s.lowerBound a = some b) :
    b ∈ s ∧ a ≤ b ∧ ∀ c ∈ s, a ≤ c → b ≤ c := by
  obtain ⟨hab, pre, post, hlist, hpre⟩ := List.find?_eq_some_iff_append.mp h
  have hsorted := s.sorted
  rw [hlist, List.pairwise_append, List.pairwise_cons] at hsorted
  refine ⟨by rw [mem_def, hlist]; simp, by simpa using hab, fun c hc hac => ?_⟩
  rw [mem_def, hlist, List.mem_append, List.mem_cons] at hc
  rcases hc with hc | rfl | hc
  · exact absurd hac (by simpa using hpre c hc)
  · exact le_rfl
  · exact (hsorted.2.1.1 c hc).le

theorem lowerBound_eq_none : s.lowerBound a = none ↔ ∀ b ∈ s, b < a := by
  rw [lowerBound, List.find?_eq_none]
  simp [mem_def]

/-- The elements at the start that meet a condition, if the condition is downward closed. -/
theorem mem_takeWhile {p : α → Bool} (hp : ∀ a b, a ≤ b → p b = true → p a = true) :
    a ∈ s.toList.takeWhile p ↔ a ∈ s ∧ p a = true := by
  obtain ⟨list, sorted⟩ := s
  change a ∈ list.takeWhile p ↔ a ∈ list ∧ p a = true
  induction list with
  | nil => simp
  | cons b l ih =>
    rw [List.pairwise_cons] at sorted
    by_cases hb : p b = true
    · rw [List.takeWhile_cons_of_pos hb, List.mem_cons, List.mem_cons, ih sorted.2, or_and_right]
      exact or_congr_left (iff_self_and.mpr fun heq => heq ▸ hb)
    · rw [List.takeWhile_cons_of_neg hb]
      refine iff_of_false List.not_mem_nil ?_
      rintro ⟨ha, hpa⟩
      rcases List.mem_cons.mp ha with rfl | ha
      · exact hb hpa
      · exact hb (hp b a (sorted.1 a ha).le hpa)

/-- Erasing the first `n` elements one by one. -/
theorem foldl_erase_take (n : ℕ) :
    (s.toList.take n).foldl (fun t b => (t.erase b).1) s = s.drop n := by
  induction n generalizing s with
  | zero => rfl
  | succ n ih =>
    obtain ⟨list, sorted⟩ := s
    cases list with
    | nil => rfl
    | cons a l =>
      have herase : ((⟨a :: l, sorted⟩ : OrderedSet α).erase a).1 = ⟨l, sorted.of_cons⟩ := by
        simp only [erase, List.erase_cons_head]
      rw [List.take_succ_cons, List.foldl_cons, herase]
      exact ih

end OrderedSet
