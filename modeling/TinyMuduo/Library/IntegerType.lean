import Mathlib.Algebra.Ring.Int.Defs
import Mathlib.Algebra.Ring.Nat
import Mathlib.Tactic.SplitIfs

/-!
# Integer types of a fixed width

The values of a signed or unsigned integer type of at most 64 bits, as integers, and the conversion
of an integer to such a type. Arithmetic on a type that is narrower than `int` is done in `int`.

## Main definitions

* `IntegerType`, `IntegerType.Contains`: the types and their values.
* `IntegerType.ofInt`, `IntegerType.promoted`: conversion, and the type in which the values of a
  type and the values of `int` are combined.

## Main results

* `IntegerType.ofInt_of_contains`: a value of the type is converted to itself.
* `IntegerType.Contains.promoted`, `IntegerType.Contains.map`: promotion keeps the values, and so do
  operations that go towards zero.
-/

/-- A signed or unsigned integer type of at most 64 bits. -/
structure IntegerType where
  signed : Bool
  bits : ℕ
  bits_pos : 0 < bits
  bits_le : bits ≤ 64

namespace IntegerType

/-- The type `int`. -/
def int : IntegerType := ⟨true, 32, by decide, by decide⟩

variable (T : IntegerType)

/-- The integers that are values of the type. -/
def Contains (v : ℤ) : Prop :=
  if T.signed then -2 ^ (T.bits - 1) ≤ v ∧ v < 2 ^ (T.bits - 1) else 0 ≤ v ∧ v < 2 ^ T.bits

instance (v : ℤ) : Decidable (T.Contains v) := by
  unfold Contains
  infer_instance

/-- An integer converted to the type. -/
def ofInt (v : ℤ) : ℤ := if T.signed then v.bmod (2 ^ T.bits) else v % 2 ^ T.bits

/-- The type in which a value of the type and a value of `int` are combined. -/
def promoted : IntegerType := if T.bits < 32 then int else T

variable {T} {v : ℤ}

theorem ofInt_of_contains (h : T.Contains v) : T.ofInt v = v := by
  rw [Contains] at h
  rw [ofInt]
  split_ifs at h ⊢
  · have hdouble : (2 : ℤ) ^ T.bits = 2 ^ (T.bits - 1) * 2 := by
      rw [← pow_succ, Nat.sub_add_cancel T.bits_pos]
    refine Int.bmod_eq_of_le_mul_two ?_ ?_
    · push_cast
      omega
    · push_cast
      omega
  · exact Int.emod_eq_of_lt h.1 h.2

/-- An odd function that does not increase natural numbers keeps the values of a type. -/
theorem Contains.map (h : T.Contains v) (f : ℤ → ℤ) (hneg : ∀ w, f (-w) = -f w)
    (hnat : ∀ n : ℕ, 0 ≤ f n ∧ f n ≤ n) : T.Contains (f v) := by
  have hpos : (0 : ℤ) < 2 ^ (T.bits - 1) := Int.pow_pos (by decide)
  have hbetween : 0 ≤ f v ∧ f v ≤ v ∨ v ≤ f v ∧ f v ≤ 0 := by
    obtain ⟨n, rfl | rfl⟩ := v.eq_nat_or_neg
    · exact .inl (hnat n)
    · obtain ⟨hlo, hhi⟩ := hnat n
      rw [hneg]
      omega
  rw [Contains] at h ⊢
  split_ifs at h ⊢ <;> omega

theorem Contains.promoted (h : T.Contains v) : T.promoted.Contains v := by
  rw [IntegerType.promoted]
  split_ifs with hbits
  · have hle (k : ℕ) (hk : k ≤ 31) : (2 : ℤ) ^ k ≤ 2 ^ 31 := by
      exact_mod_cast Nat.pow_le_pow_right (by decide) hk
    have hunsigned := hle T.bits (by omega)
    have hsigned := hle (T.bits - 1) (by omega)
    change -2 ^ 31 ≤ v ∧ v < 2 ^ 31
    rw [Contains] at h
    split_ifs at h <;> omega
  · exact h

/-- A value of a type has at most 64 bits. -/
theorem Contains.natAbs_lt (h : T.Contains v) : v.natAbs < 2 ^ 64 := by
  have hbits := T.bits_le
  have hunsigned : (2 : ℤ) ^ T.bits ≤ 2 ^ 64 := by
    exact_mod_cast Nat.pow_le_pow_right (by decide) hbits
  have hsigned : (2 : ℤ) ^ (T.bits - 1) ≤ 2 ^ 63 := by
    exact_mod_cast Nat.pow_le_pow_right (by decide) (show T.bits - 1 ≤ 63 by omega)
  rw [Contains] at h
  split_ifs at h <;> omega

end IntegerType
