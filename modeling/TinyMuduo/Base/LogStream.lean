import Mathlib.Data.List.Induction
import TinyMuduo.Base.CString
import TinyMuduo.Library.Decimal

/-!
# Log streams

This file embeds `base/LogStream.h` and `base/LogStream.cpp`. Of the array of a `FixedBuffer` the
bytes in front of `cur_` are kept; those behind it are never read. A write past the end of the array
is `none`.

A null C string is appended as six bytes from the literal `"null"`, which has five: the four letters
and the zero byte. The byte behind the literal is `stray`, whatever it may be.

## Main definitions

* `FixedBuffer`, `convert`, `LogStream`, with one definition for each member function.
* `Item`, `LogStream.insert`: what can be inserted, and the operators `<<`.

## Main results

* `convert_eq`: `convert` writes the decimal text of a number.
-/

namespace TinyMuduo

def KSmallBuffer : ℕ := 4000

def KLargeBuffer : ℕ := 4000 * 1000

/-- The class `FixedBuffer<SIZE>`: the bytes of `data_` in front of `cur_`. -/
structure FixedBuffer (SIZE : ℕ) where
  data : List UInt8
  length_le : data.length ≤ SIZE

namespace FixedBuffer

variable {SIZE : ℕ}

/-- The constructor. -/
def new : FixedBuffer SIZE := ⟨[], Nat.zero_le SIZE⟩

variable (b : FixedBuffer SIZE)

def length : ℕ := b.data.length

def avail : ℕ := SIZE - b.length

/-- `bytes` and then `extra` more bytes are written at `current()`, and `cur_` is moved behind
`bytes`. -/
def write (bytes : List UInt8) (extra : ℕ) : Option (FixedBuffer SIZE) :=
  if h : (b.data ++ bytes).length + extra ≤ SIZE then
    some ⟨b.data ++ bytes, Nat.le_of_add_right_le h⟩
  else none

/-- `append`, with the `len` bytes at `buf`. -/
def append (bytes : List UInt8) : Option (FixedBuffer SIZE) :=
  if castInt bytes.length < b.avail then b.write bytes 0 else some b

def reset : FixedBuffer SIZE := new

variable {b} {b' : FixedBuffer SIZE} {bytes : List UInt8}

/-- What is written stays inside of the array exactly if it is not longer than the free part. -/
theorem length_append_le_iff {extra : ℕ} :
    (b.data ++ bytes).length + extra ≤ SIZE ↔ bytes.length + extra ≤ b.avail := by
  have hle := b.length_le
  rw [avail, length, List.length_append]
  omega

/-- What is shorter than the free part is appended. -/
theorem data_append (hlen : bytes.length < 2 ^ 31) (hfits : bytes.length < b.avail)
    (h : b.append bytes = some b') : b'.data = b.data ++ bytes := by
  rw [append, castInt_of_lt hlen, if_pos (by exact_mod_cast hfits), write] at h
  split_ifs at h
  exact congrArg data (Option.some.inj h).symm

/-- A call of `append` with what is shorter than the free part has a result. -/
theorem exists_append (hlen : bytes.length < 2 ^ 31) (hfits : bytes.length < b.avail) :
    ∃ b', b.append bytes = some b' := by
  have hle : (b.data ++ bytes).length + 0 ≤ SIZE := length_append_le_iff.mpr hfits.le
  refine ⟨⟨b.data ++ bytes, Nat.le_of_add_right_le hle⟩, ?_⟩
  rw [append, castInt_of_lt hlen, if_pos (by exact_mod_cast hfits), write, dif_pos hle]

end FixedBuffer

/-! ### Numbers -/

/-- `zero[lsd]`, a byte of the array `digits` counted from its middle. -/
def digitAt (lsd : ℤ) : UInt8 := (bytesOf "9876543210123456789").getD (9 + lsd).toNat 0

/-- The loop of `convert`: the digits of a number, the last one first. -/
def convertLoop : ℕ → ℤ → List UInt8
  | 0, _ => []
  | fuel + 1, i => digitAt (i.tmod 10) :: if i.tdiv 10 = 0 then [] else convertLoop fuel (i.tdiv 10)

/-- `convert`: what is left of the zero byte that it writes at the end. Each iteration divides the
number by ten. -/
def convert (value : ℤ) : List UInt8 :=
  (convertLoop (value.natAbs + 1) value ++ if value < 0 then bytesOf "-" else []).reverse

/-! ### Insertions -/

structure LogStream where
  buffer_ : FixedBuffer KSmallBuffer

/-- What can be inserted into a stream. A C string is the bytes at its address, or a null pointer; a
floating-point number is the text that `snprintf` formats for it. -/
inductive Item
  | bool (v : Bool)
  | char (v : UInt8)
  | short (v : Int16)
  | unsigned_short (v : UInt16)
  | int (v : Int32)
  | unsigned_int (v : UInt32)
  | long (v : Int64)
  | unsigned_long (v : UInt64)
  | long_long (v : Int64)
  | unsigned_long_long (v : UInt64)
  | double (text : List UInt8) (h : text.length < 48)
  | cstring (str : Option (List UInt8))
  | string (p : List UInt8)
  | SP (p : List UInt8)

namespace LogStream

def kMaxNumbersize : ℕ := 48

/-- The constructor. -/
def new : LogStream := ⟨.new⟩

variable (s : LogStream)

/-- What is done with the text of a number: it is written with a zero byte behind it. -/
def writeNumber (text : List UInt8) : Option LogStream :=
  if kMaxNumbersize ≤ s.buffer_.avail then (s.buffer_.write text 1).map .mk else some s

def formatInteger (v : ℤ) : Option LogStream := s.writeNumber (convert v)

def append (bytes : List UInt8) : Option LogStream := (s.buffer_.append bytes).map .mk

/-- The operators `<<`. -/
def insert (stray : UInt8) : Item → Option LogStream
  | .bool v => s.append (if v then bytesOf "1" else bytesOf "0")
  | .char v => s.append [v]
  | .short v => s.formatInteger v.toInt
  | .unsigned_short v => s.formatInteger v.toNat
  | .int v => s.formatInteger v.toInt
  | .unsigned_int v => s.formatInteger v.toNat
  | .long v => s.formatInteger v.toInt
  | .unsigned_long v => s.formatInteger v.toNat
  | .long_long v => s.formatInteger v.toInt
  | .unsigned_long_long v => s.formatInteger v.toNat
  | .double text _ => s.writeNumber text
  | .cstring (some str) => s.append (cString str)
  | .cstring none => s.append (bytesOf "null" ++ [0, stray])
  | .string p => s.append p
  | .SP p => s.append p

/-- A chain of insertions. -/
def insertAll (stray : UInt8) (items : List Item) : Option LogStream :=
  items.foldlM (fun s item => s.insert stray item) s

end LogStream

/-! ### The text of a number -/

private theorem digitAt_natCast {d : ℕ} (h : d < 10) : digitAt d = UInt8.ofNat (48 + d) := by
  have hall : ∀ d : Fin 10, digitAt (d : ℕ) = UInt8.ofNat (48 + d) := by decide
  exact hall ⟨d, h⟩

private theorem digitAt_neg {d : ℕ} (h : d < 10) : digitAt (-d) = UInt8.ofNat (48 + d) := by
  have hall : ∀ d : Fin 10, digitAt (-(d : ℕ)) = UInt8.ofNat (48 + d) := by decide
  exact hall ⟨d, h⟩

/-- The last digit of a number, of either sign. -/
theorem digitAt_tmod (i : ℤ) : digitAt (i.tmod 10) = UInt8.ofNat (48 + i.natAbs % 10) := by
  have hlt : i.natAbs % 10 < 10 := Nat.mod_lt _ (by decide)
  obtain ⟨n, rfl | rfl⟩ := i.eq_nat_or_neg
  · rw [Int.natAbs_natCast] at hlt ⊢
    exact digitAt_natCast hlt
  · rw [Int.natAbs_neg, Int.natAbs_natCast] at hlt ⊢
    rw [Int.neg_tmod]
    exact digitAt_neg hlt

/-- The loop writes the digits of the number without its sign. -/
theorem convertLoop_eq (fuel : ℕ) (i : ℤ) (h : i.natAbs < fuel) :
    convertLoop fuel i = (Decimal.digits i.natAbs).reverse := by
  induction fuel generalizing i with
  | zero => exact absurd h (Nat.not_lt_zero _)
  | succ fuel ih =>
    have hdiv : (i.tdiv 10).natAbs = i.natAbs / 10 := by
      rw [Int.natAbs_tdiv]
      rfl
    rw [convertLoop, digitAt_tmod]
    split_ifs with hzero
    · have hlt : i.natAbs < 10 := by
        rw [hzero, Int.natAbs_zero] at hdiv
        omega
      rw [Decimal.digits_of_lt_ten hlt, Nat.mod_eq_of_lt hlt]
      rfl
    · have hle : 10 ≤ i.natAbs := by
        by_contra hlt
        exact hzero (Int.natAbs_eq_zero.mp (by omega))
      rw [ih _ (by omega), hdiv, Decimal.digits_of_ten_le hle, List.reverse_append]
      rfl

/-- The decimal text of a number. -/
def integerText (v : ℤ) : List UInt8 :=
  if v < 0 then 45 :: Decimal.digits v.natAbs else Decimal.digits v.natAbs

/-- `convert` writes the decimal text of a number. -/
theorem convert_eq (v : ℤ) : convert v = integerText v := by
  rw [convert, integerText, convertLoop_eq _ v (Nat.lt_succ_self _), List.reverse_append,
    List.reverse_reverse]
  split_ifs <;> rfl

/-! ### What is kept of the items -/

namespace Item

/-- The text of an item. A null C string counts as the text `"null"`. -/
def text : Item → List UInt8
  | bool v => if v then bytesOf "1" else bytesOf "0"
  | char v => [v]
  | short v => integerText v.toInt
  | unsigned_short v => integerText v.toNat
  | int v => integerText v.toInt
  | unsigned_int v => integerText v.toNat
  | long v => integerText v.toInt
  | unsigned_long v => integerText v.toNat
  | long_long v => integerText v.toInt
  | unsigned_long_long v => integerText v.toNat
  | double text _ => text
  | cstring str => str.elim (bytesOf "null") cString
  | string p => p
  | SP p => p

def isNumber : Item → Bool
  | bool _ | char _ | cstring _ | string _ | SP _ => false
  | _ => true

/-- Where an item is dropped: a number when fewer than `kMaxNumbersize` bytes are free, any other
item unless more bytes are free than its text has. -/
def Dropped (free : ℕ) (item : Item) : Prop :=
  if item.isNumber then free < LogStream.kMaxNumbersize else free ≤ item.text.length

instance (free : ℕ) (item : Item) : Decidable (item.Dropped free) := by
  unfold Dropped
  infer_instance

/-- The condition under which an item is kept or dropped as a whole: a null C string is inserted
only where four letters do not fit, and the length of a text that does not fit is not converted to
an `int` below the number of free bytes. -/
def Fits (free : ℕ) : Item → Prop
  | cstring none => free ≤ 4
  | item => item.isNumber = true ∨
      (free ≤ item.text.length → (free : ℤ) ≤ castInt item.text.length)

end Item

/-- The content of a stream after an item, when it was `content` before. -/
def keep (content : List UInt8) (item : Item) : List UInt8 :=
  if item.Dropped (KSmallBuffer - content.length) then content else content ++ item.text

namespace LogStream

variable {s : LogStream} {stray : UInt8}

/-- The stream holds `content`. -/
def Has (s : Option LogStream) (content : List UInt8) : Prop :=
  ∃ t, s = some t ∧ t.buffer_.length ≤ KSmallBuffer ∧ t.buffer_.data = content

theorem has_some (s : LogStream) {content : List UInt8} :
    Has (some s) content ↔ s.buffer_.data = content := by
  constructor
  · rintro ⟨t, ht, -, hdata⟩
    obtain rfl := Option.some.inj ht
    exact hdata
  · exact fun hdata => ⟨s, rfl, s.buffer_.length_le, hdata⟩

theorem not_has_none {content : List UInt8} : ¬ Has none content := by
  rintro ⟨t, ht, -⟩
  exact absurd ht (by simp)

/-- A write that stays inside of the array. -/
theorem has_write {bytes : List UInt8} {extra : ℕ} (h : bytes.length + extra ≤ s.buffer_.avail) :
    Has ((s.buffer_.write bytes extra).map .mk) (s.buffer_.data ++ bytes) := by
  rw [FixedBuffer.write, dif_pos (FixedBuffer.length_append_le_iff.mpr h)]
  exact (has_some _).mpr rfl

private theorem not_has_write {bytes : List UInt8} {extra : ℕ} {content : List UInt8}
    (h : s.buffer_.avail < bytes.length + extra) :
    ¬ Has ((s.buffer_.write bytes extra).map .mk) content := by
  rw [FixedBuffer.write, dif_neg (mt FixedBuffer.length_append_le_iff.mp (Nat.not_le_of_lt h))]
  exact not_has_none

/-- A text is appended or dropped as a whole exactly if its length is not converted to an `int` that
seems to fit. -/
theorem has_append (bytes : List UInt8) :
    Has (s.append bytes) (if s.buffer_.avail ≤ bytes.length then s.buffer_.data
        else s.buffer_.data ++ bytes) ↔
      (s.buffer_.avail ≤ bytes.length → (s.buffer_.avail : ℤ) ≤ castInt bytes.length) := by
  have havail : s.buffer_.avail ≤ 4000 := Nat.sub_le _ _
  rw [append, FixedBuffer.append]
  rcases Nat.lt_or_ge bytes.length s.buffer_.avail with hlt | hge
  · rw [castInt_of_lt (by omega), if_pos (by omega), if_neg (by omega)]
    exact iff_of_true (has_write (by omega)) fun hge => absurd hge (by omega)
  · rw [if_pos hge]
    split_ifs with hcast
    · have hlt : s.buffer_.avail < bytes.length + 0 := by
        rcases Nat.lt_or_eq_of_le hge with hlt | heq
        · exact hlt
        · rw [← heq, castInt_of_lt (by omega)] at hcast
          exact absurd hcast (by omega)
      exact iff_of_false (not_has_write hlt) fun himp => absurd (himp hge) (by omega)
    · exact iff_of_true ((has_some s).mpr rfl) fun _ => by omega

/-- A text that is shorter than the free part is appended. -/
theorem exists_append {bytes : List UInt8} (h : bytes.length < s.buffer_.avail) :
    ∃ t, s.append bytes = some t ∧ t.buffer_.data = s.buffer_.data ++ bytes := by
  obtain ⟨t, ht, -, hdata⟩ := (has_append bytes).mpr fun hle => absurd hle (Nat.not_le_of_lt h)
  exact ⟨t, ht, by rw [hdata, if_neg (Nat.not_le_of_lt h)]⟩

/-- The text of a number always fits where it is written. -/
theorem has_writeNumber {text : List UInt8} (h : text.length < kMaxNumbersize) :
    Has (s.writeNumber text) (if s.buffer_.avail < kMaxNumbersize then s.buffer_.data
        else s.buffer_.data ++ text) := by
  rw [writeNumber]
  split_ifs with hle hlt
  · omega
  · exact has_write (by omega)
  · exact (has_some s).mpr rfl
  · omega

/-- A number of 64 bits has at most twenty digits and a sign. -/
theorem length_integerText_le {v : ℤ} (h : v.natAbs < 2 ^ 64) : (integerText v).length ≤ 21 := by
  have hdigits : (Decimal.digits v.natAbs).length ≤ 20 :=
    (Decimal.length_digits_le_iff (by decide)).mpr (by omega)
  rw [integerText]
  split_ifs
  · rw [List.length_cons]
    omega
  · omega

theorem has_formatInteger {v : ℤ} (h : v.natAbs < 2 ^ 64) :
    Has (s.formatInteger v) (if s.buffer_.avail < kMaxNumbersize then s.buffer_.data
        else s.buffer_.data ++ integerText v) := by
  rw [formatInteger, convert_eq]
  exact has_writeNumber (Nat.lt_of_le_of_lt (length_integerText_le h) (by decide))

/-- The bytes that are appended for a null C string are its text only where neither fits. -/
theorem has_append_null : Has (s.append (bytesOf "null" ++ [0, stray]))
      (if s.buffer_.avail ≤ 4 then s.buffer_.data else s.buffer_.data ++ bytesOf "null") ↔
    s.buffer_.avail ≤ 4 := by
  have hlen : (bytesOf "null" ++ [0, stray]).length = 6 := rfl
  rw [append, FixedBuffer.append, hlen, castInt_of_lt (by decide)]
  rcases Nat.lt_or_ge 6 s.buffer_.avail with hlt | hge
  · rw [if_pos (by exact_mod_cast hlt), if_neg (by omega)]
    refine iff_of_false ?_ (by omega)
    rintro ⟨t, ht, -, hdata⟩
    have hfits : (bytesOf "null" ++ [0, stray]).length + 0 ≤ s.buffer_.avail := hlen.trans_le hlt.le
    obtain ⟨t', ht', -, hdata'⟩ := has_write hfits
    obtain rfl := Option.some.inj (ht.symm.trans ht')
    rw [hdata] at hdata'
    exact absurd ((congrArg List.length (List.append_cancel_left hdata')).trans hlen) (by decide)
  · rw [if_neg (by omega)]
    refine (has_some s).trans ?_
    split_ifs with hle
    · exact iff_of_true rfl hle
    · refine iff_of_false (fun hdata => ?_) hle
      exact absurd (congrArg List.length hdata) (by simp [bytesOf])

private theorem natAbs_lt_of_toInt (v : Int64) : v.toInt.natAbs < 2 ^ 64 := by
  have hlo := v.le_toInt
  have hhi := v.toInt_lt
  omega

/-- What an insertion does. -/
theorem has_insert (item : Item) :
    Has (s.insert stray item) (keep s.buffer_.data item) ↔ item.Fits s.buffer_.avail := by
  have hnumber {v : ℤ} (h : v.natAbs < 2 ^ 64) {P : Prop} :
      Has (s.formatInteger v) (if s.buffer_.avail < kMaxNumbersize then s.buffer_.data
        else s.buffer_.data ++ integerText v) ↔ true = true ∨ P :=
    iff_of_true (has_formatInteger h) (.inl rfl)
  have htext {bytes : List UInt8} : Has (s.append bytes)
      (if s.buffer_.avail ≤ bytes.length then s.buffer_.data else s.buffer_.data ++ bytes) ↔
      false = true ∨ (s.buffer_.avail ≤ bytes.length →
        (s.buffer_.avail : ℤ) ≤ castInt bytes.length) :=
    (has_append bytes).trans (by simp)
  cases item with
  | bool v => exact htext
  | char v => exact htext
  | short v => exact hnumber (by have := v.le_toInt; have := v.toInt_lt; omega)
  | unsigned_short v => exact hnumber (by have := v.toNat_lt; omega)
  | int v => exact hnumber (by have := v.le_toInt; have := v.toInt_lt; omega)
  | unsigned_int v => exact hnumber (by have := v.toNat_lt; omega)
  | long v => exact hnumber (natAbs_lt_of_toInt v)
  | unsigned_long v => exact hnumber (by have := v.toNat_lt; omega)
  | long_long v => exact hnumber (natAbs_lt_of_toInt v)
  | unsigned_long_long v => exact hnumber (by have := v.toNat_lt; omega)
  | double text h => exact iff_of_true (has_writeNumber h) (.inl rfl)
  | cstring str =>
    cases str with
    | none => exact has_append_null
    | some str => exact htext
  | string p => exact htext
  | SP p => exact htext

theorem insertAll_append (items : List Item) (item : Item) :
    s.insertAll stray (items ++ [item]) = (s.insertAll stray items).bind (·.insert stray item) := by
  simp [insertAll, List.foldlM_append]

/-- After every insertion into a new stream the buffer holds, in order, the texts of the items that
were not dropped, exactly if every item fits where it is inserted. -/
theorem has_insertAll_iff (stray : UInt8) (items : List Item) :
    (∀ start, start <+: items → Has (new.insertAll stray start) (start.foldl keep [])) ↔
      ∀ start item, start ++ [item] <+: items →
        item.Fits (KSmallBuffer - (start.foldl keep []).length) := by
  have hstep {start : List Item} {item : Item}
      (h : Has (new.insertAll stray start) (start.foldl keep [])) :
      Has (new.insertAll stray (start ++ [item])) ((start ++ [item]).foldl keep []) ↔
        item.Fits (KSmallBuffer - (start.foldl keep []).length) := by
    obtain ⟨t, ht, -, hdata⟩ := h
    rw [insertAll_append, ht, Option.bind_some, List.foldl_append, List.foldl_cons, List.foldl_nil,
      ← hdata]
    exact has_insert item
  constructor
  · intro h start item hpre
    exact (hstep (h start ((List.prefix_append start [item]).trans hpre))).mp (h _ hpre)
  · intro h start
    induction start using List.reverseRecOn with
    | nil => exact fun _ => (has_some new).mpr rfl
    | append_singleton start item ih =>
      intro hpre
      exact (hstep (ih ((List.prefix_append start [item]).trans hpre))).mpr (h start item hpre)

/-- A null C string in a new stream: six bytes are appended, which are not the text `"null"`. -/
theorem insertAll_null :
    (new.insertAll 0 [.cstring none]).map (·.buffer_.data) = some (bytesOf "null" ++ [0, 0]) ∧
      ¬ ∀ start, start <+: [Item.cstring none] →
        Has (new.insertAll 0 start) (start.foldl keep []) := by
  refine ⟨by decide, fun h => ?_⟩
  obtain ⟨t, ht, -, hdata⟩ := h [.cstring none] (List.prefix_refl _)
  have hmap := congrArg (Option.map (·.buffer_.data)) ht
  rw [Option.map_some, hdata] at hmap
  exact absurd hmap (by decide)

end LogStream

end TinyMuduo
