import Mathlib.Data.Nat.Digits.Defs

/-!
# Decimal text

The decimal digits of a natural number as ASCII bytes, and the number that a text of digits stands
for.

## Main definitions

* `Decimal.digits`, `Decimal.value`.

## Main results

* `Decimal.value_digits`: the digits of a number stand for it.
* `Decimal.digits_of_lt_ten`, `Decimal.digits_of_ten_le`: the recursion over the last digit.
* `Decimal.length_digits_le_iff`: the number of digits.
* `Decimal.exists_digits_eq_cons`: a number other than zero has no leading zeros.
-/

namespace Decimal

/-- The decimal digits of a number. -/
def digits (n : ℕ) : List UInt8 := (Nat.toDigits 10 n).map Char.toUInt8

/-- The number that decimal digits stand for. -/
def value (bytes : List UInt8) : ℕ :=
  Nat.ofDigitChars 10 (bytes.map fun b => Char.ofNat b.toNat) 0

theorem toNat_toUInt8_of_isDigit {c : Char} (h : c.isDigit = true) :
    c.toUInt8.toNat = c.toNat := by
  have hle : c.toNat ≤ 57 := by
    simp only [Char.isDigit, Bool.and_eq_true, decide_eq_true_eq] at h
    exact h.2
  rw [← Char.toUInt8_val, UInt32.toNat_toUInt8]
  exact Nat.mod_eq_of_lt (by change c.toNat < 256; omega)

theorem isDigit_of_mem_toDigits {n : ℕ} {c : Char} (h : c ∈ Nat.toDigits 10 n) :
    c.isDigit = true :=
  Nat.isDigit_of_mem_toDigits (by decide) (by decide) h

/-- The digits of a number stand for it. -/
theorem value_digits (n : ℕ) : value (digits n) = n := by
  have hchars : ((digits n).map fun b => Char.ofNat b.toNat) = Nat.toDigits 10 n := by
    rw [digits, List.map_map]
    refine (List.map_congr_left fun c hc => ?_).trans (List.map_id _)
    rw [Function.comp_apply, toNat_toUInt8_of_isDigit (isDigit_of_mem_toDigits hc),
      Char.ofNat_toNat, id]
  rw [value, hchars, Nat.ofDigitChars_ten_toDigits]

/-- Zeros in front of a text do not change the number. -/
theorem value_zeros_append (k : ℕ) (bytes : List UInt8) :
    value (List.replicate k 48 ++ bytes) = value bytes := by
  have hzeros : (List.replicate k (48 : UInt8)).map (fun b => Char.ofNat b.toNat) =
      List.replicate k '0' := List.map_replicate
  rw [value, List.map_append, hzeros, Nat.ofDigitChars_append, Nat.ofDigitChars_replicate_zero,
    Nat.mul_zero]
  rfl

theorem digits_injective : Function.Injective digits :=
  Function.LeftInverse.injective value_digits

/-- A digit is one of the bytes from `'0'` to `'9'`. -/
theorem mem_digits {n : ℕ} {b : UInt8} (h : b ∈ digits n) : 48 ≤ b ∧ b ≤ 57 := by
  obtain ⟨c, hc, rfl⟩ := List.mem_map.mp h
  have hdigit := isDigit_of_mem_toDigits hc
  have hnat := toNat_toUInt8_of_isDigit hdigit
  simp only [Char.isDigit, Bool.and_eq_true, decide_eq_true_eq] at hdigit
  rw [UInt8.le_iff_toNat_le, UInt8.le_iff_toNat_le, hnat]
  exact hdigit

theorem zero_not_mem_digits (n : ℕ) : 0 ∉ digits n := fun h => absurd (mem_digits h).1 (by decide)

theorem length_digits_le_iff {n k : ℕ} (hk : 0 < k) : (digits n).length ≤ k ↔ n < 10 ^ k := by
  rw [digits, List.length_map]
  exact Nat.length_toDigits_le_iff (by decide) hk

theorem toUInt8_digitChar {d : ℕ} (h : d < 10) :
    (Nat.digitChar d).toUInt8 = UInt8.ofNat (48 + d) := by
  rw [← UInt8.toNat_inj, toNat_toUInt8_of_isDigit (by simpa using h),
    Nat.toNat_digitChar_of_lt_ten h, UInt8.toNat_ofNat']
  exact (Nat.mod_eq_of_lt (by omega)).symm

theorem digits_of_lt_ten {n : ℕ} (h : n < 10) : digits n = [UInt8.ofNat (48 + n)] := by
  rw [digits, Nat.toDigits_of_lt_base h, List.map_singleton, toUInt8_digitChar h]

/-- The last digit of a number is its remainder. -/
theorem digits_of_ten_le {n : ℕ} (h : 10 ≤ n) :
    digits n = digits (n / 10) ++ [UInt8.ofNat (48 + n % 10)] := by
  rw [digits, Nat.toDigits_of_base_le (by decide) h, List.map_append, List.map_singleton,
    toUInt8_digitChar (Nat.mod_lt n (by decide))]
  rfl

/-- The first digit of a number other than zero is not a zero. -/
theorem exists_digits_eq_cons {n : ℕ} (h : 0 < n) :
    ∃ d ds, digits n = d :: ds ∧ 49 ≤ d ∧ d ≤ 57 := by
  induction n using Nat.strongRecOn with
  | ind n ih =>
    rcases Nat.lt_or_ge n 10 with hlt | hle
    · refine ⟨_, [], digits_of_lt_ten hlt, ?_, ?_⟩
      · rw [UInt8.le_iff_toNat_le, UInt8.toNat_ofNat', Nat.mod_eq_of_lt (by omega)]
        exact Nat.add_le_add_left h 48
      · rw [UInt8.le_iff_toNat_le, UInt8.toNat_ofNat', Nat.mod_eq_of_lt (by omega)]
        exact Nat.add_le_add_left (Nat.le_of_lt_succ hlt) 48
    · obtain ⟨d, ds, hds, hd⟩ := ih (n / 10) (by omega) (by omega)
      exact ⟨d, _, by rw [digits_of_ten_le hle, hds, List.cons_append], hd⟩

end Decimal
