import Mathlib.Algebra.Ring.Int.Defs
import Mathlib.Algebra.Ring.Nat
import Mathlib.Data.List.TakeWhile

/-!
# C strings

String literals, the strings that end at a zero byte, and the conversion of a length to `int`.

## Main definitions

* `bytesOf`, `cString`, `castInt`.

## Main results

* `cString_eq_self`: bytes without a zero byte are a string.
* `castInt_of_lt`: a length below `2 ^ 31` is converted to itself.
-/

namespace TinyMuduo

/-- The bytes of a string literal. -/
def bytesOf (s : String) : List UInt8 := s.toList.map Char.toUInt8

/-- The string at an address with these bytes: what `strlen` counts. -/
def cString (bytes : List UInt8) : List UInt8 := bytes.takeWhile (· != 0)

theorem cString_eq_self {bytes : List UInt8} (h : 0 ∉ bytes) : cString bytes = bytes := by
  refine List.takeWhile_eq_self_iff.mpr fun b hb => bne_iff_ne.mpr fun hzero => ?_
  exact h (hzero ▸ hb)

/-- `static_cast<int>` of an unsigned number: its lower 32 bits in two's complement. -/
def castInt (n : ℕ) : ℤ := (n : ℤ).bmod (2 ^ 32)

theorem castInt_of_lt {n : ℕ} (h : n < 2 ^ 31) : castInt n = n := by
  unfold castInt
  exact Int.bmod_eq_of_le (by omega) (by omega)

/-- The conversion keeps the number modulo `2 ^ 32` and has values from `-2 ^ 31` up to `2 ^ 31`. -/
theorem castInt_spec (n : ℕ) :
    castInt n % 2 ^ 32 = n % 2 ^ 32 ∧ -2 ^ 31 ≤ castInt n ∧ castInt n < 2 ^ 31 :=
  ⟨Int.bmod_emod, Int.le_bmod (by decide), Int.bmod_lt (by decide)⟩

end TinyMuduo
