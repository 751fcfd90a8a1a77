import Mathlib.Algebra.Order.Round
import Mathlib.Data.Int.Log
import Mathlib.Tactic.Linarith

/-!
# Rounding to nearest, ties to even

A binary floating-point format with `p` bits of significand keeps the numbers `m * 2 ^ e` with
`|m| < 2 ^ p`. The result of an operation is rounded to the nearest of them, and to the one with an
even significand where two are equally near. The exponent is not bounded here: the file says nothing
about subnormal results and about overflow.

## Main definitions

* `RoundEven.toInt`: rounding to an integer.
* `RoundEven.ulp`, `RoundEven.toPrecision`: rounding to `p` bits.

## Main results

* `RoundEven.abs_toPrecision_sub_le`: the relative error is at most `2⁻ᵖ`.
* `RoundEven.toPrecision_intCast`: integers of less than `p + 1` bits stay as they are.
-/

namespace RoundEven

variable {K : Type*} [Field K] [LinearOrder K] [FloorRing K]

/-- Rounding to the nearest integer, ties to the even one. -/
def toInt (r : K) : ℤ :=
  if Int.fract r < 1 / 2 ∨ Int.fract r = 1 / 2 ∧ Even ⌊r⌋ then ⌊r⌋ else ⌊r⌋ + 1

/-- The weight of the last of `p` bits of a number. -/
def ulp (p : ℕ) (x : K) : K := 2 ^ (Int.log 2 |x| - (p - 1))

/-- Rounding to `p` bits. -/
def toPrecision (p : ℕ) (x : K) : K := toInt (x / ulp p x) * ulp p x

variable [IsStrictOrderedRing K]

theorem abs_toInt_sub_le (r : K) : |(toInt r : K) - r| ≤ 1 / 2 := by
  have hfract : r = ⌊r⌋ + Int.fract r := (Int.floor_add_fract r).symm
  have hnonneg := Int.fract_nonneg r
  have hlt := Int.fract_lt_one r
  rw [abs_le]
  unfold toInt
  split_ifs with h
  · have hle : Int.fract r ≤ 1 / 2 := h.elim le_of_lt fun h => h.1.le
    constructor <;> linarith
  · have hle : 1 / 2 ≤ Int.fract r := not_lt.mp fun hlt => h (.inl hlt)
    push_cast
    constructor <;> linarith

@[simp] theorem toInt_intCast (n : ℤ) : toInt (n : K) = n := by
  simp [toInt]

theorem ulp_pos (p : ℕ) (x : K) : 0 < ulp p x := zpow_pos two_pos _

/-- The first of the `p` bits is set. -/
theorem ulp_mul_two_pow_le (p : ℕ) {x : K} (h : x ≠ 0) : ulp (p + 1) x * 2 ^ p ≤ |x| := by
  have hlog : ((2 : ℕ) : K) ^ Int.log 2 |x| ≤ |x| := Int.zpow_log_le_self one_lt_two (abs_pos.mpr h)
  rw [ulp, ← zpow_natCast, ← zpow_add₀ two_ne_zero]
  simpa using hlog

/-- The relative error of rounding to `p` bits. -/
theorem abs_toPrecision_sub_le {p : ℕ} (hp : 0 < p) (x : K) :
    |toPrecision p x - x| ≤ |x| / 2 ^ p := by
  obtain ⟨p, rfl⟩ := Nat.exists_eq_succ_of_ne_zero hp.ne'
  by_cases hx : x = 0
  · simp [toPrecision, hx, toInt]
  have hulp := ulp_pos (p + 1) x
  have herror : toPrecision (p + 1) x - x =
      (toInt (x / ulp (p + 1) x) - x / ulp (p + 1) x) * ulp (p + 1) x := by
    rw [toPrecision, sub_mul, div_mul_cancel₀ _ hulp.ne']
  calc |toPrecision (p + 1) x - x|
      = |(toInt (x / ulp (p + 1) x) : K) - x / ulp (p + 1) x| * ulp (p + 1) x := by
        rw [herror, abs_mul, abs_of_pos hulp]
    _ ≤ 1 / 2 * ulp (p + 1) x := mul_le_mul_of_nonneg_right (abs_toInt_sub_le _) hulp.le
    _ = ulp (p + 1) x * 2 ^ p / 2 ^ (p + 1) := by
        rw [pow_succ]
        field_simp
    _ ≤ |x| / 2 ^ (p + 1) := by gcongr; exact ulp_mul_two_pow_le p hx

/-- A number that is not negative keeps at least half of its value. -/
theorem half_le_toPrecision {p : ℕ} (hp : 0 < p) {x : K} (hx : 0 ≤ x) :
    x / 2 ≤ toPrecision p x := by
  have herror := (abs_le.mp (abs_toPrecision_sub_le hp x)).1
  have htwo : (2 : K) ≤ 2 ^ p := le_self_pow₀ one_le_two hp.ne'
  have hhalf : |x| / 2 ^ p ≤ x / 2 := by
    rw [abs_of_nonneg hx]
    gcongr
  linarith

/-- An integer of at most `p` bits is not rounded. -/
theorem toPrecision_intCast {p : ℕ} (n : ℤ) (h : |n| < 2 ^ p) : toPrecision p (n : K) = n := by
  by_cases hn : n = 0
  · simp [toPrecision, hn, toInt]
  have hlt : |(n : K)| < ((2 : ℕ) : K) ^ (p : ℤ) := by exact_mod_cast h
  have hlog : Int.log 2 |(n : K)| < p :=
    (Int.lt_zpow_iff_log_lt one_lt_two (abs_pos.mpr (Int.cast_ne_zero.mpr hn))).mp hlt
  obtain ⟨k, hk⟩ := Int.le.dest (Int.le_sub_one_of_lt hlog)
  have hulp : ulp p (n : K) * 2 ^ k = 1 := by
    rw [ulp, ← zpow_natCast, ← zpow_add₀ two_ne_zero, ← hk]
    simp
  have hquotient : (n : K) / ulp p (n : K) = ((n * 2 ^ k : ℤ) : K) := by
    rw [div_eq_iff (ulp_pos p _).ne', Int.cast_mul, Int.cast_pow, Int.cast_ofNat, mul_assoc,
      mul_comm (2 ^ k), hulp, mul_one]
  rw [toPrecision, hquotient, toInt_intCast, Int.cast_mul, Int.cast_pow, Int.cast_ofNat, mul_assoc,
    mul_comm (2 ^ k), hulp, mul_one]

end RoundEven
