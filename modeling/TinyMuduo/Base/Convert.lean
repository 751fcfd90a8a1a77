import TinyMuduo.Base.LogStream
import TinyMuduo.Library.IntegerType

/-!
# The text of an integer

The function template `convert` of `base/LogStream.cpp` at every integer type. The digits are
produced by divisions that truncate, of values that may be negative, and the remainder is an index
into a table with a digit for each of the numbers from -9 to 9. No operation leaves the values of
the type, also where the least value cannot be negated, so what is written is the decimal text of
the number.

## Main definitions

* `convertAs`: `convert<T>`, with what it writes and what it returns.
* `IsCanonical`, `textValue`: the canonical decimal texts, and the numbers that they stand for.

## Main results

* `convertAs_eq`: at every type, `convert` writes what the stream takes over, and a zero byte.
* `convertAs_canonical`: the text is canonical, stands for the number, and fits into the buffer.
-/

namespace TinyMuduo

/-- The loop of `convert<T>`: the remainder is computed in the promoted type and cast to an `int`,
the quotient is converted back to the type. -/
def convertLoopAs (T : IntegerType) : ℕ → ℤ → List UInt8
  | 0, _ => []
  | fuel + 1, i =>
    let lsd := IntegerType.int.ofInt (T.promoted.ofInt (i.tmod 10))
    let next := T.ofInt (T.promoted.ofInt (i.tdiv 10))
    digitAt lsd :: if next = 0 then [] else convertLoopAs T fuel next

/-- `convert<T>`: the bytes that are left at `buf`, and the value returned. -/
def convertAs (T : IntegerType) (value : ℤ) : List UInt8 × ℕ :=
  let text := convertLoopAs T (value.natAbs + 1) value ++ if value < 0 then bytesOf "-" else []
  (text.reverse ++ [0], text.length)

/-- The canonical decimal texts: a zero, or an optional sign and digits that do not start with a
zero. -/
inductive IsCanonical : List UInt8 → Prop
  | zero : IsCanonical (bytesOf "0")
  | positive {d : UInt8} {ds : List UInt8} (hd : 49 ≤ d ∧ d ≤ 57)
      (hds : ∀ b ∈ ds, 48 ≤ b ∧ b ≤ 57) : IsCanonical (d :: ds)
  | negative {d : UInt8} {ds : List UInt8} (hd : 49 ≤ d ∧ d ≤ 57)
      (hds : ∀ b ∈ ds, 48 ≤ b ∧ b ≤ 57) : IsCanonical (bytesOf "-" ++ d :: ds)

/-- The number that a decimal text stands for. -/
def textValue (text : List UInt8) : ℤ :=
  if text.head? = some 45 then -(Decimal.value text.tail : ℤ) else Decimal.value text

variable {T : IntegerType} {v : ℤ}

/-! ### The loop -/

private theorem contains_tdiv (h : T.Contains v) : T.Contains (v.tdiv 10) := by
  refine h.map (·.tdiv 10) (fun w => Int.neg_tdiv w 10) fun n => ?_
  simp only [Int.tdiv_eq_ediv_of_nonneg (Int.natCast_nonneg n)]
  omega

private theorem contains_tmod (h : T.Contains v) : T.Contains (v.tmod 10) := by
  refine h.map (·.tmod 10) (fun w => Int.neg_tmod w 10) fun n => ?_
  simp only [Int.tmod_eq_emod_of_nonneg (Int.natCast_nonneg n)]
  omega

/-- A remainder is a value of type `int`. -/
theorem contains_int_tmod (v : ℤ) : IntegerType.int.Contains (v.tmod 10) := by
  have hlo := Int.lt_tmod_of_pos v (show (0 : ℤ) < 10 by decide)
  have hhi := Int.tmod_lt_of_pos v (show (0 : ℤ) < 10 by decide)
  change -2 ^ 31 ≤ v.tmod 10 ∧ v.tmod 10 < 2 ^ 31
  omega

/-- No conversion in the loop changes a number. -/
theorem convertLoopAs_eq (h : T.Contains v) (fuel : ℕ) :
    convertLoopAs T fuel v = convertLoop fuel v := by
  induction fuel generalizing v with
  | zero => rfl
  | succ fuel ih =>
    have hmod := (contains_tmod h).promoted
    have hdiv := contains_tdiv h
    rw [convertLoopAs, convertLoop, IntegerType.ofInt_of_contains hmod,
      IntegerType.ofInt_of_contains (contains_int_tmod v),
      IntegerType.ofInt_of_contains hdiv.promoted, IntegerType.ofInt_of_contains hdiv, ih hdiv]

/-- `convert<T>` writes the text that the stream takes over, and a zero byte behind it. -/
theorem convertAs_eq (h : T.Contains v) :
    convertAs T v = (convert v ++ [0], (convert v).length) := by
  rw [convertAs, convertLoopAs_eq h, convert, List.length_reverse]

/-! ### The text -/

theorem isCanonical_integerText (v : ℤ) : IsCanonical (integerText v) := by
  rcases Nat.eq_zero_or_pos v.natAbs with hzero | hpos
  · rw [Int.natAbs_eq_zero.mp hzero]
    exact .zero
  · obtain ⟨d, ds, hdigits, hd⟩ := Decimal.exists_digits_eq_cons hpos
    have hds : ∀ b ∈ ds, 48 ≤ b ∧ b ≤ 57 := fun b hb =>
      Decimal.mem_digits (hdigits ▸ List.mem_cons_of_mem d hb)
    rw [integerText, hdigits]
    split_ifs
    · exact .negative hd hds
    · exact .positive hd hds

theorem textValue_integerText (v : ℤ) : textValue (integerText v) = v := by
  rw [integerText]
  split_ifs with hneg
  · rw [textValue, if_pos List.head?_cons, List.tail_cons, Decimal.value_digits]
    omega
  · have hhead : (Decimal.digits v.natAbs).head? ≠ some 45 := fun hhead =>
      absurd (Decimal.mem_digits (List.mem_of_head? hhead)).1 (by decide)
    rw [textValue, if_neg hhead, Decimal.value_digits]
    omega

/-- For every value of every integer type of at most 64 bits, `convert` writes a canonical decimal
text and a zero byte behind it, together at most `kMaxNumbersize` bytes, and returns the length of
the text. The text stands for the value, and no other value of any type has it. -/
theorem convertAs_canonical (T : IntegerType) (v : ℤ) (h : T.Contains v) :
    ∃ text, convertAs T v = (text ++ [0], text.length) ∧ IsCanonical text ∧ textValue text = v ∧
      text.length + 1 ≤ LogStream.kMaxNumbersize ∧
      ∀ T' v', IntegerType.Contains T' v' → (convertAs T' v').1 = (convertAs T v).1 → v' = v := by
  refine ⟨integerText v, ?_, isCanonical_integerText v, textValue_integerText v, ?_, ?_⟩
  · rw [convertAs_eq h, convert_eq]
  · exact Nat.lt_of_le_of_lt (LogStream.length_integerText_le h.natAbs_lt) (by decide)
  · intro T' v' h' htext
    rw [convertAs_eq h', convertAs_eq h, convert_eq, convert_eq] at htext
    rw [← textValue_integerText v', List.append_cancel_right htext, textValue_integerText]

/-- The least value of a signed type of 64 bits. -/
theorem convertAs_canonical_min : ∃ text,
    (convertAs ⟨true, 64, by decide, by decide⟩ (-2 ^ 63)).2 = text.length ∧
      IsCanonical text ∧ textValue text = -2 ^ 63 := by
  obtain ⟨text, htext, hcanonical, hvalue, -⟩ :=
    convertAs_canonical ⟨true, 64, by decide, by decide⟩ (-2 ^ 63) (by decide)
  exact ⟨text, congrArg Prod.snd htext, hcanonical, hvalue⟩

end TinyMuduo
