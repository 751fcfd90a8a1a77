import Mathlib.Logic.Function.Basic
import TinyMuduo.Buffer.Basic
import TinyMuduo.Library.Transition

/-!
# The representation invariant of the buffer

The diagram in `resoure/Buffer.h` promises `0 <= readerIndex <= writerIndex <= size`. This file
follows any number of buffers through any sequence of member functions and of `swap`s between
them, and finds exactly which calls keep that promise: all of them, except those that send
`makeSpace` into its `reserve` branch. That branch raises the capacity of the vector and not its
size, so after it an append leaves `writeIndex_` above the size, and an `ensureWritableBytes` leaves
too few writable bytes.

## Main definitions

* `Buffer.Inv`: the representation invariant.
* `Buffer.Op`, `Buffer.step`: the member functions, as steps of one buffer.
* `Buffer.Grows`: the calls that reach the `reserve` branch of `makeSpace`.
* `Buffer.Pool`, `Buffer.Pool.step`: buffers indexed by a type, and their steps.

## Main results

* `Buffer.Inv.step`, `Buffer.Inv.not_ok_of_grows`: one call, without and with the `reserve` branch.
* `Buffer.Pool.stepOk_iff_not_grows`: in a run without such calls the invariant holds in every
  state reached, and the next call keeps it exactly when it is not one of them either.
-/

namespace TinyMuduo

namespace Buffer

/-- The representation invariant `readerIndex_ <= writeIndex_ <= buffer_.size()`. -/
structure Inv (b : Buffer) : Prop where
  reader_le : b.readerIndex_ ≤ b.writeIndex_
  write_le : b.writeIndex_ ≤ b.buffer_.size

/-- The size that the constructor gives the vector. -/
def Sized (b : Buffer) : Prop := b.buffer_.size = kCheapPrepend + kInitialSize

theorem Sized.eq {b : Buffer} (h : b.Sized) : b.buffer_.size = 1032 := h

theorem inv_new (initialSize : ℕ) : (new initialSize).Inv :=
  ⟨Nat.le_refl _, by simp [new, kCheapPrepend]⟩

theorem sized_new (initialSize : ℕ) : (new initialSize).Sized := rfl

section Indices

variable {b : Buffer} (hi : b.Inv) (hs : b.Sized)

include hi hs

theorem readableBytes_eq : b.readableBytes = b.writeIndex_ - b.readerIndex_ :=
  SizeT.sub_of_le hi.reader_le (by have := hi.write_le; have := hs.eq; omega)

theorem writableBytes_eq : b.writableBytes = b.buffer_.size - b.writeIndex_ :=
  SizeT.sub_of_le hi.write_le (by have := hs.eq; omega)

end Indices

/-! ### The member functions as steps -/

/-- A call of a member function. -/
inductive Op
  | append (data : List UInt8) (fresh : ℕ → UInt8)
  | ensureWritableBytes (len : ℕ) (fresh : ℕ → UInt8)
  | readFd (delivered : Option (List UInt8)) (fresh : ℕ → UInt8)
  | retrieve (len : ℕ)
  | retrieveUntil (endIndex : ℕ)
  | retrieveAsString (len : ℕ)
  | prepend (data : List UInt8)
  | unwrite (len : ℕ)
  | retrieveall

/-- Lengths are values of `size_t`, arrays of bytes have at most `PTRDIFF_MAX` elements, and
`readv` delivers at most what its two areas hold. -/
def Op.Admissible (b : Buffer) : Op → Prop
  | .append data _ | .prepend data => data.length < 2 ^ 63
  | .ensureWritableBytes len _ | .retrieve len | .retrieveAsString len | .unwrite len =>
    len < 2 ^ 64
  | .readFd (some data) _ => data.length < 2 ^ 63 ∧ data.length ≤ b.writableBytes + extrabufSize
  | .readFd none _ | .retrieveUntil _ | .retrieveall => True

/-- The buffer after a call; `none` when an assertion of the call fails or it throws. -/
def Op.apply (b : Buffer) : Op → Option Buffer
  | .append data fresh => b.append data fresh
  | .ensureWritableBytes len fresh => b.ensureWritableBytes len fresh
  | .readFd delivered fresh => b.readFd delivered fresh
  | .retrieve len => b.retrieve len
  | .retrieveUntil endIndex => b.retrieveUntil endIndex
  | .retrieveAsString len => (b.retrieveAsString len).map Prod.snd
  | .prepend data => b.prepend data
  | .unwrite len => b.unwrite len
  | .retrieveall => some b.retrieveall

/-- One admissible call that returns. -/
def Step (b : Buffer) (op : Op) (b' : Buffer) : Prop := op.Admissible b ∧ op.apply b = some b'

/-- A request for `len` writable bytes that sends `makeSpace` into its `reserve` branch. -/
def TakesReserve (b : Buffer) (len : ℕ) : Prop :=
  b.writableBytes < len ∧
    SizeT.add b.writableBytes b.prependableBytes < SizeT.add len kCheapPrepend

/-- The calls that reach the `reserve` branch of `makeSpace`. A call of `ensureWritableBytes` counts
when its length added to `writeIndex_` stays in `size_t`; a call of `readFd` asks for space for
the part that spilled into the stack buffer, with `writeIndex_` at the end of the vector. -/
def Grows (b : Buffer) : Op → Prop
  | .append data _ => b.TakesReserve data.length
  | .ensureWritableBytes len _ => b.writeIndex_ + len < 2 ^ 64 ∧ b.TakesReserve len
  | .readFd (some data) _ => b.writableBytes < data.length ∧
    { b with writeIndex_ := b.buffer_.size }.TakesReserve (data.length - b.writableBytes)
  | _ => False

/-- What a call promises: the invariant, and after `ensureWritableBytes(len)` with a length in range
the space asked for. -/
def Ok (b : Buffer) (op : Op) (b' : Buffer) : Prop :=
  b'.Inv ∧ ∀ len fresh, op = .ensureWritableBytes len fresh → b.writeIndex_ + len < 2 ^ 64 →
    len ≤ b'.writableBytes

/-! ### Requests for space -/

section Space

variable {b b' : Buffer} (hi : b.Inv) (hs : b.Sized) {len : ℕ} {fresh : ℕ → UInt8}

include hi hs

/-- Compaction frees the bytes already read: outside of the `reserve` branch a request for space
keeps the invariant and makes the space. -/
theorem Inv.ensureWritableBytes (hlen : len < 2 ^ 64) (hgrow : ¬ b.TakesReserve len)
    (h : b.ensureWritableBytes len fresh = some b') :
    b'.Inv ∧ (b.writeIndex_ + len < 2 ^ 64 → b'.writeIndex_ + len ≤ b'.buffer_.size) := by
  have hsize := size_ensureWritableBytes h
  have hw := writableBytes_eq hi hs
  have hr := readableBytes_eq hi hs
  have h1 := hi.reader_le
  have h2 := hi.write_le
  have h3 := hs.eq
  unfold Buffer.ensureWritableBytes at h
  split_ifs at h with hspace
  · have hroom : ¬ SizeT.add b.writableBytes b.prependableBytes < SizeT.add len kCheapPrepend :=
      fun hlt => hgrow ⟨hspace, hlt⟩
    have hkeep : SizeT.add b.writableBytes b.prependableBytes =
        b.buffer_.size - b.writeIndex_ + b.readerIndex_ := by
      rw [hw, prependableBytes, SizeT.add_of_lt (by omega)]
    have hmove : SizeT.add kCheapPrepend b.readableBytes =
        kCheapPrepend + (b.writeIndex_ - b.readerIndex_) := by
      rw [hr, SizeT.add_of_lt (by simp only [kCheapPrepend]; omega)]
    rw [hkeep] at hroom
    simp only [makeSpace, hkeep, if_neg hroom, hmove] at h
    split_ifs at h with hprep
    obtain rfl := Option.some.inj h
    simp only [kCheapPrepend] at hprep hroom
    refine ⟨⟨by simp only [kCheapPrepend]; omega, by
      simp only [kCheapPrepend, CharVector.size_write]; omega⟩, fun hfit => ?_⟩
    rw [SizeT.add_of_lt (by omega)] at hroom
    simp only [kCheapPrepend, CharVector.size_write]
    omega
  · obtain rfl := Option.some.inj h
    exact ⟨hi, fun _ => by omega⟩

omit hi hs in
/-- The `reserve` branch moves no index. -/
theorem ensureWritableBytes_of_takesReserve (hgrow : b.TakesReserve len)
    (h : b.ensureWritableBytes len fresh = some b') :
    b'.readerIndex_ = b.readerIndex_ ∧ b'.writeIndex_ = b.writeIndex_ := by
  rw [Buffer.ensureWritableBytes, if_pos hgrow.1, makeSpace, if_pos hgrow.2] at h
  obtain ⟨v, -, rfl⟩ := Option.map_eq_some_iff.mp h
  exact ⟨rfl, rfl⟩

end Space

section Append

variable {b b' : Buffer} (hi : b.Inv) (hs : b.Sized) {data : List UInt8} {fresh : ℕ → UInt8}

include hi hs

/-- An append outside of the `reserve` branch keeps the invariant. -/
theorem Inv.append (hdata : data.length < 2 ^ 63) (hgrow : ¬ b.TakesReserve data.length)
    (h : b.append data fresh = some b') : b'.Inv := by
  have h2 := hi.write_le
  have h3 := hs.eq
  obtain ⟨c, hc, rfl⟩ := Option.map_eq_some_iff.mp h
  obtain ⟨hci, hfit⟩ := hi.ensureWritableBytes hs (by omega) hgrow hc
  have hroom := hfit (by omega)
  have h4 := hci.reader_le
  have h5 : c.buffer_.size = 1032 := (size_ensureWritableBytes hc).trans h3
  have hend : SizeT.add c.writeIndex_ data.length = c.writeIndex_ + data.length :=
    SizeT.add_of_lt (by omega)
  exact ⟨by simp only [hasWritten, hend]; omega, by
    simpa only [hasWritten, hend, CharVector.size_write] using hroom⟩

omit hi hs in
private theorem writeIndex_append_of_takesReserve (hgrow : b.TakesReserve data.length)
    (h : b.append data fresh = some b') :
    b'.writeIndex_ = SizeT.add b.writeIndex_ data.length := by
  obtain ⟨c, hc, rfl⟩ := Option.map_eq_some_iff.mp h
  simp only [hasWritten, (ensureWritableBytes_of_takesReserve hgrow hc).2]

omit hi hs in
/-- The `reserve` branch returns unless the block would be too large for a vector. -/
theorem exists_append_of_takesReserve (hgrow : b.TakesReserve data.length)
    (hmax : SizeT.add b.writeIndex_ data.length ≤ CharVector.maxSize) :
    ∃ b', b.append data fresh = some b' := by
  simp only [Buffer.append, Buffer.ensureWritableBytes, if_pos hgrow.1, makeSpace, if_pos hgrow.2,
    CharVector.reserve, if_neg (Nat.not_lt.mpr hmax)]
  split_ifs <;> exact ⟨_, rfl⟩

/-- An append through the `reserve` branch ends above the size of the vector. -/
theorem not_inv_append (hdata : data.length < 2 ^ 63) (hgrow : b.TakesReserve data.length)
    (h : b.append data fresh = some b') : ¬ b'.Inv := by
  intro hb'
  have h2 := hi.write_le
  have h3 := hs.eq
  have hw := writableBytes_eq hi hs
  have hlt := hgrow.1
  have hle := hb'.write_le
  rw [writeIndex_append_of_takesReserve hgrow h, size_append h, SizeT.add_of_lt (by omega)] at hle
  omega

end Append

/-- What `readFd` does with a spill: with `writeIndex_` at the end of the vector, it appends the
bytes that did not fit. -/
theorem readFd_eq_append {b b' : Buffer} {data : List UInt8} {fresh : ℕ → UInt8}
    (hspill : b.writableBytes < data.length) (h : b.readFd (some data) fresh = some b') :
    ∃ c : Buffer, c.readerIndex_ = b.readerIndex_ ∧ c.writeIndex_ = b.buffer_.size ∧
      c.buffer_.size = b.buffer_.size ∧ c.append (data.drop b.writableBytes) fresh = some b' := by
  simp only [readFd, if_neg (Nat.not_le.mpr hspill)] at h
  exact ⟨{ b with
    buffer_ := b.buffer_.write b.writeIndex_ (data.take b.writableBytes)
    writeIndex_ := b.buffer_.size }, rfl, rfl, rfl, h⟩

private theorem takesReserve_congr {b c : Buffer} (hr : c.readerIndex_ = b.readerIndex_)
    (hw : c.writeIndex_ = b.writeIndex_) (hs : c.buffer_.size = b.buffer_.size) (len : ℕ) :
    c.TakesReserve len ↔ b.TakesReserve len := by
  simp only [TakesReserve, writableBytes, prependableBytes, hr, hw, hs]

/-! ### One call -/

theorem inv_retrieve {b b' : Buffer} (hi : b.Inv) (hs : b.Sized) {len : ℕ}
    (h : b.retrieve len = some b') : b'.Inv := by
  have h1 := hi.reader_le
  have h2 := hi.write_le
  have h3 := hs.eq
  have hr := readableBytes_eq hi hs
  unfold retrieve at h
  split_ifs at h with hle hlt
  · obtain rfl := Option.some.inj h
    have hend : SizeT.add b.readerIndex_ len = b.readerIndex_ + len := SizeT.add_of_lt (by omega)
    exact ⟨by simp only [hend]; omega, h2⟩
  · obtain rfl := Option.some.inj h
    exact ⟨Nat.le_refl _, by simp only [retrieveall, kCheapPrepend]; omega⟩

/-- A call that does not reach the `reserve` branch keeps what it promises. -/
theorem Inv.step {b b' : Buffer} (hi : b.Inv) (hs : b.Sized) {op : Op} (h : b.Step op b')
    (hgrow : ¬ b.Grows op) : b.Ok op b' := by
  obtain ⟨hadm, h⟩ := h
  have h1 := hi.reader_le
  have h2 := hi.write_le
  have h3 := hs.eq
  have hr := readableBytes_eq hi hs
  have hw := writableBytes_eq hi hs
  cases op with
  | append data fresh => exact ⟨hi.append hs hadm hgrow h, by simp⟩
  | ensureWritableBytes len fresh =>
    by_cases hfit : b.writeIndex_ + len < 2 ^ 64
    · obtain ⟨hb', hroom⟩ := hi.ensureWritableBytes hs hadm (fun hg => hgrow ⟨hfit, hg⟩) h
      have hs' : b'.Sized := (size_ensureWritableBytes h).trans hs
      refine ⟨hb', fun len' fresh' heq _ => ?_⟩
      obtain ⟨rfl, -⟩ := Op.ensureWritableBytes.inj heq
      rw [writableBytes_eq hb' hs']
      have := hroom hfit
      omega
    · refine ⟨?_, fun len' fresh' heq hlt => ?_⟩
      · by_cases hg : b.TakesReserve len
        · obtain ⟨hr', hw'⟩ := ensureWritableBytes_of_takesReserve hg h
          exact ⟨by omega, by rw [hw', size_ensureWritableBytes h]; exact h2⟩
        · exact (hi.ensureWritableBytes hs hadm hg h).1
      · obtain ⟨rfl, -⟩ := Op.ensureWritableBytes.inj heq
        exact absurd hlt hfit
  | readFd delivered fresh =>
    refine ⟨?_, by simp⟩
    cases delivered with
    | none =>
      obtain rfl := Option.some.inj h
      exact hi
    | some data =>
      by_cases hspill : b.writableBytes < data.length
      · obtain ⟨c, hcr, hcw, hcs, hc⟩ := readFd_eq_append hspill h
        have hci : c.Inv := ⟨by omega, by omega⟩
        have hdata : data.length < 2 ^ 63 := hadm.1
        refine hci.append (hcs.trans hs) (by simp only [List.length_drop]; omega) ?_ hc
        rw [takesReserve_congr (b := { b with writeIndex_ := b.buffer_.size }) hcr hcw hcs,
          List.length_drop]
        exact fun hg => hgrow ⟨hspill, hg⟩
      · have hle : data.length ≤ b.writableBytes := Nat.not_lt.mp hspill
        simp only [Op.apply, readFd, if_pos hle, Option.some.injEq] at h
        obtain rfl := h
        have hend : SizeT.add b.writeIndex_ data.length = b.writeIndex_ + data.length :=
          SizeT.add_of_lt (by omega)
        exact ⟨by simp only [hasWritten, hend]; omega, by
          simp only [hasWritten, hend, CharVector.size_write]; omega⟩
  | retrieve len => exact ⟨inv_retrieve hi hs h, by simp⟩
  | retrieveUntil endIndex =>
    refine ⟨?_, by simp⟩
    simp only [Op.apply, retrieveUntil, Option.ite_none_right_eq_some] at h
    exact inv_retrieve hi hs h.2
  | retrieveAsString len =>
    refine ⟨?_, by simp⟩
    simp only [Op.apply, retrieveAsString] at h
    split_ifs at h
    · obtain ⟨p, hp, rfl⟩ := Option.map_eq_some_iff.mp h
      obtain ⟨c, hc, rfl⟩ := Option.map_eq_some_iff.mp hp
      exact inv_retrieve hi hs hc
    · simp at h
  | prepend data =>
    refine ⟨?_, by simp⟩
    obtain ⟨hle, h⟩ := Option.ite_none_right_eq_some.mp h
    obtain rfl := Option.some.inj h
    rw [prependableBytes] at hle
    exact ⟨by simp only [SizeT.sub_of_le hle (by omega)]; omega, h2⟩
  | unwrite len =>
    refine ⟨?_, by simp⟩
    simp only [Op.apply, unwrite, Option.ite_none_right_eq_some] at h
    obtain ⟨hle, h⟩ := h
    obtain rfl := Option.some.inj h
    have hend : SizeT.sub b.writeIndex_ len = b.writeIndex_ - len :=
      SizeT.sub_of_le (by omega) (by omega)
    exact ⟨by simp only [hend]; omega, by simp only [hend]; omega⟩
  | retrieveall =>
    obtain rfl := Option.some.inj h
    exact ⟨⟨Nat.le_refl _, by simp only [retrieveall, kCheapPrepend]; omega⟩, by simp⟩

/-- A call that reaches the `reserve` branch breaks its promise. -/
theorem Inv.not_ok_of_grows {b b' : Buffer} (hi : b.Inv) (hs : b.Sized) {op : Op}
    (h : b.Step op b') (hgrow : b.Grows op) : ¬ b.Ok op b' := by
  obtain ⟨hadm, h⟩ := h
  have h1 := hi.reader_le
  have h2 := hi.write_le
  have h3 := hs.eq
  have hw := writableBytes_eq hi hs
  cases op with
  | append data fresh => exact fun hok => not_inv_append hi hs hadm hgrow h hok.1
  | ensureWritableBytes len fresh =>
    intro hok
    have hroom := hok.2 len fresh rfl hgrow.1
    obtain ⟨-, hw'⟩ := ensureWritableBytes_of_takesReserve hgrow.2 h
    have hlt := hgrow.2.1
    rw [writableBytes, hw', size_ensureWritableBytes h, ← writableBytes] at hroom
    omega
  | readFd delivered fresh =>
    cases delivered with
    | none => exact absurd hgrow id
    | some data =>
      obtain ⟨hspill, hg⟩ := hgrow
      obtain ⟨c, hcr, hcw, hcs, hc⟩ := readFd_eq_append hspill h
      refine fun hok => not_inv_append (b := c) ⟨by omega, by omega⟩ (hcs.trans hs) ?_ ?_ hc hok.1
      · have := hadm.1
        simp only [List.length_drop]
        omega
      · rw [takesReserve_congr (b := { b with writeIndex_ := b.buffer_.size }) hcr hcw hcs,
          List.length_drop]
        exact hg
  | retrieve _ | retrieveUntil _ | retrieveAsString _ | prepend _ | unwrite _ | retrieveall =>
    exact absurd hgrow id

theorem Sized.step {b b' : Buffer} (hs : b.Sized) {op : Op} (h : b.Step op b') : b'.Sized := by
  refine Eq.trans ?_ hs
  obtain ⟨-, h⟩ := h
  cases op with
  | append data fresh => exact size_append h
  | ensureWritableBytes len fresh => exact size_ensureWritableBytes h
  | readFd delivered fresh => exact size_readFd h
  | retrieve len => exact size_retrieve h
  | retrieveUntil endIndex => exact size_retrieve (Option.ite_none_right_eq_some.mp h).2
  | retrieveAsString len =>
    obtain ⟨p, hp, rfl⟩ := Option.map_eq_some_iff.mp h
    obtain ⟨c, hc, rfl⟩ := Option.map_eq_some_iff.mp (Option.ite_none_right_eq_some.mp hp).2
    exact size_retrieve hc
  | prepend data =>
    obtain rfl := Option.some.inj (Option.ite_none_right_eq_some.mp h).2
    rfl
  | unwrite len =>
    obtain rfl := Option.some.inj (Option.ite_none_right_eq_some.mp h).2
    rfl
  | retrieveall =>
    obtain rfl := Option.some.inj h
    rfl

/-! ### Runs of any number of buffers -/

/-- Buffers indexed by `ι`. -/
abbrev Pool (ι : Type*) := ι → Buffer

namespace Pool

variable {ι : Type*} [DecidableEq ι]

/-- A call on one buffer, or a `swap` of two. -/
inductive Action (ι : Type*)
  | on (i : ι) (op : Op)
  | swap (i j : ι)

/-- One step of the buffers. -/
inductive Step : Pool ι → Action ι → Pool ι → Prop
  | on {p : Pool ι} {i : ι} {op : Op} {b' : Buffer} (h : (p i).Step op b') :
      Step p (.on i op) (Function.update p i b')
  | swap (p : Pool ι) (i j : ι) :
      Step p (.swap i j) (Function.update (Function.update p i (p j)) j (p i))

/-- The calls that reach the `reserve` branch of `makeSpace`. -/
def Grows (p : Pool ι) : Action ι → Prop
  | .on i op => (p i).Grows op
  | .swap _ _ => False

/-- What a step promises: the invariant of every buffer, and the space that an
`ensureWritableBytes` with a length in range asked for. -/
def StepOk (p : Pool ι) (a : Action ι) (p' : Pool ι) : Prop :=
  (∀ i, (p' i).Inv) ∧ ∀ i len fresh, a = .on i (.ensureWritableBytes len fresh) →
    (p i).writeIndex_ + len < 2 ^ 64 → len ≤ (p' i).writableBytes

/-- The invariant of every buffer, with the size the constructor gave it. -/
def Inv (p : Pool ι) : Prop := ∀ i, (p i).Inv ∧ (p i).Sized

omit [DecidableEq ι] in
theorem inv_new (initialSize : ι → ℕ) : Inv fun i => Buffer.new (initialSize i) :=
  fun _ => ⟨Buffer.inv_new _, sized_new _⟩

theorem Inv.update {p : Pool ι} (hp : Inv p) (i : ι) {b : Buffer} (hb : b.Inv) (hs : b.Sized) :
    Inv (Function.update p i b) := by
  intro j
  by_cases hj : j = i
  · subst hj
    simpa using ⟨hb, hs⟩
  · simpa [hj] using hp j

theorem Inv.step {p p' : Pool ι} (hp : Inv p) {a : Action ι} (hgrow : ¬ Grows p a)
    (h : Step p a p') : Inv p' := by
  cases h with
  | @on i _ _ h => exact hp.update i ((hp i).1.step (hp i).2 h hgrow).1 ((hp i).2.step h)
  | swap i j => exact (hp.update i (hp j).1 (hp j).2).update j (hp i).1 (hp i).2

/-- From good buffers, a step keeps its promise exactly when it does not reach the `reserve`
branch. -/
theorem Inv.stepOk_iff {p p' : Pool ι} (hp : Inv p) {a : Action ι} (h : Step p a p') :
    StepOk p a p' ↔ ¬ Grows p a := by
  constructor
  · intro hok hgrow
    cases h with
    | @on i op b' h =>
      refine (hp i).1.not_ok_of_grows (hp i).2 h hgrow ⟨by simpa using hok.1 i, ?_⟩
      rintro len fresh rfl hfit
      simpa using hok.2 i len fresh rfl hfit
    | swap i j => exact hgrow
  · intro hgrow
    refine ⟨fun i => ((hp.step hgrow h) i).1, ?_⟩
    rintro i len fresh rfl hfit
    cases h with
    | @on i op b' h =>
      simpa using ((hp i).1.step (hp i).2 h hgrow).2 len fresh rfl hfit

/-- **The representation invariant.** In a run of buffers none of whose calls reaches the `reserve`
branch of `makeSpace`, every buffer satisfies `readerIndex_ <= writeIndex_ <= buffer_.size()` in
every state reached; and the next step keeps the invariant, and gives the space that an
`ensureWritableBytes` asked for, exactly when it does not reach that branch. -/
theorem stepOk_iff_not_grows (initialSize : ι → ℕ) {p : Pool ι}
    (hp : Transition.Reaches Step (fun p a => ¬ Grows p a)
      (fun i => Buffer.new (initialSize i)) p) :
    (∀ i, (p i).Inv) ∧ ∀ a p', Step p a p' → (StepOk p a p' ↔ ¬ Grows p a) := by
  have hinv : Inv p := hp.invariant (inv_new initialSize) fun _ _ _ hq hgrow h => hq.step hgrow h
  exact ⟨fun i => (hinv i).1, fun a p' h => hinv.stepOk_iff h⟩

/-- The run of one append of three bytes to a new buffer. -/
theorem stepOk_iff_not_grows_append_three :
    ∃ p : Pool Unit, (p ()).writeIndex_ = 11 ∧ (p ()).Inv := by
  have hrun := (Transition.Reaches.refl fun _ : Unit => Buffer.new 0).snoc (R := Step)
    (C := fun p a => ¬ Grows p a) (a := .on () (.append [97, 98, 99] fun _ => 0))
    (fun hgrow => absurd hgrow.1 (by decide)) (.on ⟨by simp [Op.Admissible], rfl⟩)
  exact ⟨_, rfl, (stepOk_iff_not_grows (fun _ => 0) hrun).1 ()⟩

/-- One append of 1025 bytes to a new buffer leaves `writeIndex_` above the size of the vector. -/
theorem exists_reaches_writeIndex_gt_size :
    ∃ p : Pool Unit, Transition.Reaches Step Transition.anyLabel (fun _ => Buffer.new 1024) p ∧
      (p ()).buffer_.size = 1032 ∧ (p ()).writeIndex_ = 1033 ∧ ¬ (p ()).Inv := by
  let data : List UInt8 := List.replicate 1025 0
  have hlength : data.length = 1025 := List.length_replicate
  have hgrow : (Buffer.new 1024).TakesReserve data.length := by
    rw [hlength]
    exact ⟨by decide, by decide⟩
  obtain ⟨b, hb⟩ : ∃ b, (Buffer.new 1024).append data (fun _ => 0) = some b :=
    exists_append_of_takesReserve hgrow (by rw [hlength]; decide)
  have hsize : b.buffer_.size = 1032 := size_append hb
  have hwrite : b.writeIndex_ = 1033 := by
    rw [writeIndex_append_of_takesReserve hgrow hb, hlength]
    decide
  refine ⟨Function.update (fun _ => Buffer.new 1024) () b, ?_, by simpa using hsize,
    by simpa using hwrite, fun h => ?_⟩
  · exact (Transition.Reaches.refl _).snoc (a := .on () (.append data fun _ => 0)) trivial
      (.on ⟨by simp [Op.Admissible, hlength], hb⟩)
  · have hle := h.write_le
    simp [hsize, hwrite] at hle

end Pool

end Buffer

end TinyMuduo
