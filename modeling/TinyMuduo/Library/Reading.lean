import Mathlib.Data.List.Basic
import Mathlib.Data.Nat.Notation
import Mathlib.Tactic.SplitIfs

/-!
# Programs that read a memory through addresses

A program over a memory `ℕ → β` reads cells by their addresses. It has a result and the list of the
addresses that it has read, in order, or no result when it fails. `Within` says that on a memory
the program has a certain result and stays in a range of addresses while it runs; there is one rule
for each way to build a program. The algorithms on ranges of the standard library are programs of
this kind, and each one is specified by a function on the list of the cells in the range.

## Main definitions

* `Reading`, `Reading.read`, `Reading.ofOption`: the programs.
* `Reading.Within`: the result of a program that stays in a range.
* `Reading.cells`: the cells of a range.
* `Reading.copy`, `Reading.find`, `Reading.skip`, `Reading.startsWith`, `Reading.search`: algorithms
  on ranges.

## Main results

* `Reading.Within.bind`: the rule for programs one after the other.
* `Reading.copy_within`, `Reading.find_within`, `Reading.skip_within`, `Reading.startsWith_within`,
  `Reading.search_within`: the specifications.
-/

/-- A program that reads cells of type `β`: its result and the addresses it has read. -/
def Reading (β α : Type) : Type := (ℕ → β) → Option (α × List ℕ)

namespace Reading

variable {β α γ : Type}

instance : Monad (Reading β) where
  pure a := fun _ => some (a, [])
  bind x f := fun m => (x m).bind fun r => (f r.1 m).map fun r' => (r'.1, r.2 ++ r'.2)

/-- The cell at an address. -/
def read (i : ℕ) : Reading β β := fun m => some (m i, [i])

/-- A result that may be missing, without a read. -/
def ofOption (o : Option α) : Reading β α := fun _ => o.map fun a => (a, [])

/-- On the memory `m` the program has the result `a` and reads addresses from `lo` up to `hi`. -/
def Within (x : Reading β α) (m : ℕ → β) (lo hi : ℕ) (a : α) : Prop :=
  ∃ l, x m = some (a, l) ∧ ∀ i ∈ l, lo ≤ i ∧ i < hi

variable {m : ℕ → β} {lo hi : ℕ}

theorem bind_eq {x : Reading β α} {f : α → Reading β γ} {a : α} {c : γ} {l l' : List ℕ}
    (hx : x m = some (a, l)) (hf : f a m = some (c, l')) : (x >>= f) m = some (c, l ++ l') := by
  change (x m).bind _ = _
  rw [hx, Option.bind_some, hf]
  rfl

/-- Nothing is read after `x`. -/
theorem bind_eq_of_nil {x : Reading β α} {f : α → Reading β γ} {a : α} {c : γ} {l : List ℕ}
    (hx : x m = some (a, l)) (hf : f a m = some (c, [])) : (x >>= f) m = some (c, l) := by
  rw [bind_eq hx hf, List.append_nil]

theorem read_eq (i : ℕ) : (read i : Reading β β) m = some (m i, [i]) := rfl

theorem ofOption_eq {o : Option α} {a : α} (h : o = some a) :
    (ofOption o : Reading β α) m = some (a, []) := by
  rw [h]
  rfl

theorem within_pure (a : α) : (pure a : Reading β α).Within m lo hi a := ⟨[], rfl, by simp⟩

theorem within_read {i : ℕ} (hlo : lo ≤ i) (hhi : i < hi) : (read i).Within m lo hi (m i) :=
  ⟨[i], read_eq i, by simpa using ⟨hlo, hhi⟩⟩

theorem within_ofOption {o : Option α} {a : α} (h : o = some a) :
    (ofOption o : Reading β α).Within m lo hi a := ⟨[], ofOption_eq h, by simp⟩

theorem Within.bind {x : Reading β α} {f : α → Reading β γ} {a : α} {c : γ}
    (hx : x.Within m lo hi a) (hf : (f a).Within m lo hi c) : (x >>= f).Within m lo hi c := by
  obtain ⟨l, hl, hin⟩ := hx
  obtain ⟨l', hl', hin'⟩ := hf
  exact ⟨l ++ l', bind_eq hl hl', fun i h => (List.mem_append.mp h).elim (hin i) (hin' i)⟩

theorem Within.mono {x : Reading β α} {a : α} {lo' hi' : ℕ} (h : x.Within m lo hi a)
    (hlo : lo' ≤ lo) (hhi : hi ≤ hi') : x.Within m lo' hi' a := by
  obtain ⟨l, hl, hin⟩ := h
  exact ⟨l, hl, fun i h => ⟨Nat.le_trans hlo (hin i h).1, Nat.lt_of_lt_of_le (hin i h).2 hhi⟩⟩

theorem Within.of_eq {x : Reading β α} {a a' : α} (h : x.Within m lo hi a) (heq : a = a') :
    x.Within m lo hi a' := heq ▸ h

/-- Whatever the memory holds, the result of the program has the property. -/
def Ensures (x : Reading β α) (P : α → Prop) : Prop := ∀ m a l, x m = some (a, l) → P a

theorem ensures_trivial (x : Reading β α) : x.Ensures fun _ => True := fun _ _ _ _ => trivial

theorem ensures_pure {P : α → Prop} {a : α} (h : P a) : (pure a : Reading β α).Ensures P := by
  intro m a' l heq
  obtain ⟨rfl, -⟩ := Prod.mk.inj (Option.some.inj heq)
  exact h

theorem ensures_ofOption {P : α → Prop} {o : Option α} (h : ∀ a, o = some a → P a) :
    (ofOption o : Reading β α).Ensures P := by
  intro m a l heq
  obtain ⟨a', ha', heq⟩ := Option.map_eq_some_iff.mp heq
  obtain ⟨rfl, -⟩ := Prod.mk.inj heq
  exact h a' ha'

/-- Sequencing: the second program may use what the first one ensures. -/
theorem Ensures.bind {x : Reading β α} {f : α → Reading β γ} {Q : α → Prop} {P : γ → Prop}
    (hx : x.Ensures Q) (hf : ∀ a, Q a → (f a).Ensures P) : (x >>= f).Ensures P := by
  intro m c l heq
  obtain ⟨⟨a, l'⟩, ha, heq⟩ := Option.bind_eq_some_iff.mp heq
  obtain ⟨⟨c', l''⟩, hc, heq⟩ := Option.map_eq_some_iff.mp heq
  obtain ⟨rfl, -⟩ := Prod.mk.inj heq
  exact hf a (hx m a l' ha) m c' l'' hc

/-! ### The cells of a range -/

/-- The cells at the `n` addresses from `i` on. -/
def cells (m : ℕ → β) (i : ℕ) : ℕ → List β
  | 0 => []
  | n + 1 => m i :: cells m (i + 1) n

@[simp] theorem length_cells (i n : ℕ) : (cells m i n).length = n := by
  induction n generalizing i with
  | zero => rfl
  | succ n ih => rw [cells, List.length_cons, ih]

theorem take_cells (i : ℕ) {k n : ℕ} (h : k ≤ n) : (cells m i n).take k = cells m i k := by
  induction n generalizing i k with
  | zero =>
    obtain rfl := Nat.le_zero.mp h
    rfl
  | succ n ih =>
    cases k with
    | zero => rfl
    | succ k => rw [cells, List.take_succ_cons, ih (i + 1) (Nat.le_of_succ_le_succ h), cells]

theorem drop_cells (i k n : ℕ) : (cells m i n).drop k = cells m (i + k) (n - k) := by
  induction n generalizing i k with
  | zero => simp [cells]
  | succ n ih =>
    cases k with
    | zero => rfl
    | succ k =>
      rw [cells, List.drop_succ_cons, ih, Nat.add_assoc, Nat.add_comm 1 k,
        Nat.succ_sub_succ]

theorem getElem?_cells (i : ℕ) {k n : ℕ} (h : k < n) : (cells m i n)[k]? = some (m (i + k)) := by
  induction n generalizing i k with
  | zero => omega
  | succ n ih =>
    cases k with
    | zero => rfl
    | succ k =>
      rw [cells, List.getElem?_cons_succ, ih (i + 1) (Nat.lt_of_succ_lt_succ h)]
      congr 2
      omega

/-- A list whose elements are those of the memory is the list of the cells. -/
theorem cells_eq {i : ℕ} {l : List β} (h : ∀ k, k < l.length → l[k]? = some (m (i + k))) :
    cells m i l.length = l := by
  refine List.ext_getElem? fun k => ?_
  rcases Nat.lt_or_ge k l.length with hk | hk
  · rw [getElem?_cells i hk, h k hk]
  · rw [List.getElem?_eq_none (by simpa using hk), List.getElem?_eq_none hk]

/-! ### Algorithms on ranges -/

/-- The cells of a range, as the constructor of a string copies them. -/
def copy (i : ℕ) : ℕ → Reading β (List β)
  | 0 => pure []
  | n + 1 => do
    let b ← read i
    let l ← copy (i + 1) n
    return b :: l

theorem copy_within (i n : ℕ) : (copy i n).Within m i (i + n) (cells m i n) := by
  induction n generalizing i with
  | zero => exact within_pure _
  | succ n ih =>
    refine (within_read (Nat.le_refl i) (by omega)).bind ?_
    exact ((ih (i + 1)).mono (by omega) (by omega)).bind (within_pure _)

/-- `std::find_if`: the first address whose cell meets the condition, or the end of the range. -/
def find (p : β → Bool) (i : ℕ) : ℕ → Reading β ℕ
  | 0 => pure i
  | n + 1 => do if p (← read i) then return i else find p (i + 1) n

theorem find_within (p : β → Bool) (i n : ℕ) :
    (find p i n).Within m i (i + n) (i + (cells m i n).findIdx p) := by
  induction n generalizing i with
  | zero => exact within_pure _
  | succ n ih =>
    refine (within_read (Nat.le_refl i) (by omega)).bind ?_
    rw [cells, List.findIdx_cons]
    cases hp : p (m i) with
    | true => exact within_pure _
    | false =>
      refine ((ih (i + 1)).mono (by omega) (by omega)).of_eq ?_
      rw [cond_false]
      omega

/-- `strspn`: the first address whose cell does not meet the condition. It fails when there is none
among `n` cells. -/
def skip (p : β → Bool) (i : ℕ) : ℕ → Reading β ℕ
  | 0 => ofOption none
  | n + 1 => do if p (← read i) then skip p (i + 1) n else return i

/-- A cell that does not meet the condition is not passed. -/
theorem skip_within (p : β → Bool) {i n k : ℕ} (hk : k < n) (hstop : p (m (i + k)) = false) :
    (skip p i n).Within m i (i + k + 1) (i + (cells m i k).findIdx (! p ·)) := by
  induction n generalizing i k with
  | zero => omega
  | succ n ih =>
    refine (within_read (Nat.le_refl i) (by omega)).bind ?_
    cases k with
    | zero =>
      rw [Nat.add_zero] at hstop
      rw [if_neg (by simp [hstop])]
      exact within_pure _
    | succ k =>
      rw [cells, List.findIdx_cons]
      cases hp : p (m i) with
      | false => exact within_pure _
      | true =>
        have hstop' : p (m (i + 1 + k)) = false := by
          rwa [Nat.add_assoc, Nat.add_comm 1 k]
        refine ((ih (Nat.lt_of_succ_lt_succ hk) hstop').mono (by omega) (by omega)).of_eq ?_
        rw [Bool.not_true, cond_false]
        omega

section Pattern

variable [BEq β]

/-- The range starts with the cells of a list, as `std::equal` finds out. -/
def startsWith : List β → ℕ → ℕ → Reading β Bool
  | [], _, _ => pure true
  | _ :: _, _, 0 => pure false
  | c :: cs, i, n + 1 => do if c == (← read i) then startsWith cs (i + 1) n else return false

theorem startsWith_within (cs : List β) (i n : ℕ) :
    (startsWith cs i n).Within m i (i + n) (cs.isPrefixOf (cells m i n)) := by
  induction cs generalizing i n with
  | nil => exact within_pure _
  | cons c cs ih =>
    cases n with
    | zero => exact within_pure _
    | succ n =>
      refine (within_read (Nat.le_refl i) (by omega)).bind ?_
      rw [cells, List.isPrefixOf]
      cases hc : c == m i with
      | false => exact within_pure _
      | true => exact (ih (i + 1) n).mono (by omega) (by omega)

/-- The first place where a list starts in another one. -/
def placeOf (cs : List β) : List β → Option ℕ
  | [] => none
  | b :: l => if cs.isPrefixOf (b :: l) then some 0 else (placeOf cs l).map (· + 1)

/-- `std::search`: the first address of the range at which a list starts. -/
def search (cs : List β) (i : ℕ) : ℕ → Reading β (Option ℕ)
  | 0 => pure none
  | n + 1 => do if ← startsWith cs i (n + 1) then return some i else search cs (i + 1) n

theorem search_within (cs : List β) (i n : ℕ) :
    (search cs i n).Within m i (i + n) ((placeOf cs (cells m i n)).map (i + ·)) := by
  induction n generalizing i with
  | zero => exact within_pure _
  | succ n ih =>
    refine (startsWith_within cs i (n + 1)).bind ?_
    rw [cells, placeOf]
    split_ifs with hprefix
    · exact within_pure _
    · refine ((ih (i + 1)).mono (by omega) (by omega)).of_eq ?_
      rw [Option.map_map]
      refine Option.map_congr fun k _ => ?_
      exact Nat.add_right_comm i 1 k

end Pattern

end Reading
