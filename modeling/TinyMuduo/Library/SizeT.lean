import Mathlib.Algebra.Group.Nat.Defs

/-!
# Unsigned 64-bit arithmetic on natural numbers

Sums and differences of 64-bit unsigned integers, as natural numbers reduced modulo `2 ^ 64`. As
long as a sum stays below `2 ^ 64` and a difference above `0` they are the sum and the difference
of natural numbers; a difference below `0` comes out near `2 ^ 64`.

## Main definitions

* `SizeT.add`, `SizeT.sub`.

## Main results

* `SizeT.add_of_lt`, `SizeT.sub_of_le`: the operations without wrap-around.
-/

namespace SizeT

/-- The sum of two 64-bit unsigned integers. -/
def add (a b : ℕ) : ℕ := (a + b) % 2 ^ 64

/-- The difference of two 64-bit unsigned integers. -/
def sub (a b : ℕ) : ℕ := (a + (2 ^ 64 - b % 2 ^ 64)) % 2 ^ 64

theorem add_of_lt {a b : ℕ} (h : a + b < 2 ^ 64) : add a b = a + b :=
  Nat.mod_eq_of_lt h

theorem sub_of_le {a b : ℕ} (h : b ≤ a) (ha : a < 2 ^ 64) : sub a b = a - b := by
  unfold sub
  omega

end SizeT
