import Mathlib.Data.Int.CardIntervalMod
import Mathlib.Data.List.Nodup

/-!
# Picking in turn

A cursor goes through the positions of a list, one at a turn, and back to the first one from the
last. After `k` turns it stands at position `k % n`, where `n` is the length of the list
(`RoundRobin.advance_mod`), so the element picked in turn `k` is the one at that position. The
elements of a list without duplicates are picked almost equally often: in `k` turns each is picked
`k / n` times, and those at the first `k % n` positions once more (`RoundRobin.count_picks`).

## Main definitions

* `RoundRobin.advance`: the next position of the cursor.
* `RoundRobin.picks`: the elements picked in the first turns.
-/

namespace RoundRobin

/-- The position after `next` among `n`, and the first one after the last. -/
def advance (n next : ℕ) : ℕ := if n ≤ next + 1 then 0 else next + 1

theorem advance_mod {n : ℕ} (hn : 0 < n) (k : ℕ) : advance n (k % n) = (k + 1) % n := by
  have hlt : k % n < n := Nat.mod_lt k hn
  rw [advance, Nat.add_mod_eq_ite]
  rcases Nat.lt_or_ge 1 n with h1 | h1
  · rw [Nat.mod_eq_of_lt h1]
    split_ifs <;> omega
  · obtain rfl : n = 1 := by omega
    simp [Nat.mod_one]

variable {α : Type*} (l : List α)

/-- The elements picked in the first `k` turns. -/
def picks (k : ℕ) : List α := (List.range k).filterMap fun i => l[i % l.length]?

theorem picks_succ (k : ℕ) : picks l (k + 1) = picks l k ++ l[k % l.length]?.toList := by
  rw [picks, List.range_succ, List.filterMap_append]
  cases h : l[k % l.length]? <;> simp [picks, h]

variable {l}

/-- An element is picked in each turn. -/
theorem picks_succ_of_ne {a : α} {k : ℕ} (h : l[k % l.length]? = some a) :
    picks l (k + 1) = picks l k ++ [a] := by
  rw [picks_succ, h, Option.toList_some]

variable [DecidableEq α]

/-- How often the element at a position is picked. -/
theorem count_picks (hl : l.Nodup) {j : ℕ} {a : α} (hj : l[j]? = some a) (k : ℕ) :
    (picks l k).count a = k / l.length + if j < k % l.length then 1 else 0 := by
  have hlt : j < l.length := (List.getElem?_eq_some_iff.mp hj).1
  have hpos : 0 < l.length := Nat.zero_lt_of_lt hlt
  have hcount : (picks l k).count a = k.count (· ≡ j [MOD l.length]) := by
    induction k with
    | zero => rfl
    | succ k ih =>
      have hmod : k % l.length < l.length := Nat.mod_lt k hpos
      have hiff : l[k % l.length] = a ↔ k ≡ j [MOD l.length] := by
        have hinj : l[k % l.length] = l[j] ↔ k % l.length = j := hl.getElem_inj_iff
        rw [Nat.ModEq, Nat.mod_eq_of_lt hlt, ← hinj, (List.getElem?_eq_some_iff.mp hj).2]
      rw [picks_succ_of_ne (List.getElem?_eq_getElem hmod), List.count_append, ih, Nat.count_succ,
        List.count_singleton]
      simp [hiff]
  rw [hcount, Nat.count_modEq_card k hpos, Nat.mod_eq_of_lt hlt]

/-- No element is picked more than once more than another one. -/
theorem count_picks_le (hl : l.Nodup) {a b : α} (ha : a ∈ l) (hb : b ∈ l) (k : ℕ) :
    (picks l k).count a ≤ (picks l k).count b + 1 := by
  obtain ⟨i, hi⟩ := List.mem_iff_getElem?.mp ha
  obtain ⟨j, hj⟩ := List.mem_iff_getElem?.mp hb
  rw [count_picks hl hi, count_picks hl hj]
  split_ifs <;> omega

end RoundRobin
