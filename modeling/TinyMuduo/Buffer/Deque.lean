import TinyMuduo.Buffer.Invariant

/-!
# The buffer as a queue of bytes

A byte deque is a list of bytes: bytes are added at the back and at the front and taken from the
front and from the back. This file shows that the readable bytes of a buffer evolve as a byte
deque, whatever moves the two indices: compaction, the reset of an empty buffer, a prepend into
the cheap prepend area and an `unwrite`. The calls are those whose assertion holds, and
`makeSpace` may be entered in its compaction branch only. Its own assertions then hold.

## Main definitions

* `Deque.Op`, `Deque.step`: the operations of a deque.
* `Buffer.Call`, `Buffer.Call.apply`, `Buffer.Call.toDeque`: the calls of a buffer and the
  operations that they stand for.
* `Buffer.callBoth`: a call on a buffer with a deque beside it.
* `Buffer.Allowed`: the assertion of the call holds, and `makeSpace` compacts.

## Main results

* `Buffer.exists_apply_eq`, `Buffer.callBoth_eq`: one call.
* `Buffer.reaches_deque`: a deque beside a buffer holds its readable bytes in every run of calls.
-/

namespace TinyMuduo

namespace Deque

variable {α : Type*}

/-- The operations of a deque. -/
inductive Op (α : Type*)
  | pushBack (data : List α)
  | pushFront (data : List α)
  | popFront (n : ℕ)
  | popBack (n : ℕ)

/-- The elements taken by an operation and the deque after it, if it has as many elements. -/
def step (q : List α) : Op α → Option (List α × List α)
  | .pushBack data => some ([], q ++ data)
  | .pushFront data => some ([], data ++ q)
  | .popFront n => if n ≤ q.length then some (q.take n, q.drop n) else none
  | .popBack n =>
    if n ≤ q.length then some (q.drop (q.length - n), q.take (q.length - n)) else none

end Deque

/-! ### Parts of a block -/

namespace CharVector

variable {v : CharVector} {data : List UInt8} {i r w : ℕ}

theorem getElem?_slice (k : ℕ) :
    (v.slice r w)[k]? = if k < w - r then v.block[r + k]? else none := by
  rw [slice, List.getElem?_take, List.getElem?_drop]

theorem length_slice (hw : w ≤ v.capacity) : (v.slice r w).length = w - r := by
  rw [capacity] at hw
  simp only [slice, List.length_take, List.length_drop]
  omega

/-- What a write inside of the block leaves at each index. -/
theorem getElem?_write (h : i + data.length ≤ v.capacity) (k : ℕ) :
    (v.write i data).block[k]? =
      if i ≤ k ∧ k < i + data.length then data[k - i]? else v.block[k]? := by
  rw [capacity] at h
  have htake : (v.block.take i).length = i := by
    rw [List.length_take]
    omega
  have hblock : (v.write i data).block =
      v.block.take i ++ data ++ v.block.drop (i + data.length) := by
    simp only [write, overwrite]
    rw [List.take_of_length_le]
    simp only [List.length_append, List.length_drop]
    omega
  rw [hblock, List.append_assoc]
  rcases Nat.lt_or_ge k i with hki | hki
  · rw [List.getElem?_append_left (by omega), List.getElem?_take, if_pos hki, if_neg (by omega)]
  · rw [List.getElem?_append_right (by omega), htake]
    rcases Nat.lt_or_ge k (i + data.length) with hkd | hkd
    · rw [List.getElem?_append_left (by omega), if_pos ⟨hki, hkd⟩]
    · rw [List.getElem?_append_right (by omega), List.getElem?_drop, if_neg (by omega)]
      congr 1
      omega

/-- Bytes written behind a part of the block prolong it. -/
theorem slice_write_end (hr : r ≤ w) (h : w + data.length ≤ v.capacity) :
    (v.write w data).slice r (w + data.length) = v.slice r w ++ data := by
  have hlen : (v.slice r w).length = w - r := length_slice (by omega)
  ext1 k
  rw [getElem?_slice, getElem?_write h]
  rcases Nat.lt_or_ge k (w - r) with hk | hk
  · rw [if_pos (by omega), if_neg (by omega), List.getElem?_append_left (by omega),
      getElem?_slice, if_pos hk]
  · rw [List.getElem?_append_right (by omega), hlen]
    split_ifs with hk'
    · rw [show r + k - w = k - (w - r) by omega]
    · omega
    · rw [List.getElem?_eq_none (by omega)]

/-- Bytes written before a part of the block prolong it at its front. -/
theorem slice_write_front (hi : i + data.length ≤ w) (h : w ≤ v.capacity) :
    (v.write i data).slice i w = data ++ v.slice (i + data.length) w := by
  ext1 k
  rw [getElem?_slice, getElem?_write (by omega)]
  rcases Nat.lt_or_ge k data.length with hk | hk
  · rw [if_pos (by omega), if_pos (by omega), List.getElem?_append_left hk,
      Nat.add_sub_cancel_left]
  · rw [List.getElem?_append_right hk, getElem?_slice, if_neg (by omega : ¬ (i ≤ i + k ∧ _)),
      show i + data.length + (k - data.length) = i + k by omega]
    split_ifs
    · rfl
    · omega
    · omega
    · rfl

/-- A part of the block that was just written. -/
theorem slice_write_self (h : i + data.length ≤ v.capacity) :
    (v.write i data).slice i (i + data.length) = data := by
  have hfront := slice_write_front (Nat.le_refl (i + data.length)) h
  rw [hfront]
  simp [slice]

theorem drop_slice (n : ℕ) : (v.slice r w).drop n = v.slice (r + n) w := by
  rw [slice, slice, List.drop_take, List.drop_drop, Nat.sub_sub]

private theorem take_slice {n : ℕ} (hn : r + n ≤ w) : (v.slice r w).take n = v.slice r (r + n) := by
  rw [slice, slice, List.take_take, Nat.add_sub_cancel_left, Nat.min_eq_left (by omega)]

end CharVector

namespace Buffer

/-! ### The calls and what they stand for -/

/-- A call of a member function. -/
inductive Call
  | append (data : List UInt8) (fresh : ℕ → UInt8)
  | retrieve (len : ℕ)
  | retrieveUntil (endIndex : ℕ)
  | retrieveAsString (len : ℕ)
  | retrieveAllAsString
  | prepend (data : List UInt8)
  | unwrite (len : ℕ)
  | retrieveall

/-- The bytes that a call returns, if it returns bytes, and the buffer after it. -/
def Call.apply (b : Buffer) : Call → Option (Option (List UInt8) × Buffer)
  | append data fresh => (b.append data fresh).map fun b' => (none, b')
  | retrieve len => (b.retrieve len).map fun b' => (none, b')
  | retrieveUntil endIndex => (b.retrieveUntil endIndex).map fun b' => (none, b')
  | retrieveAsString len => (b.retrieveAsString len).map fun (s, b') => (some s, b')
  | retrieveAllAsString => b.retrieveAllAsString.map fun (s, b') => (some s, b')
  | prepend data => (b.prepend data).map fun b' => (none, b')
  | unwrite len => (b.unwrite len).map fun b' => (none, b')
  | retrieveall => some (none, b.retrieveall)

/-- The operation of the deque of readable bytes. -/
def Call.toDeque (b : Buffer) : Call → Deque.Op UInt8
  | append data _ => .pushBack data
  | retrieve len | retrieveAsString len => .popFront len
  | retrieveUntil endIndex => .popFront (endIndex - b.readerIndex_)
  | retrieveAllAsString | retrieveall => .popFront b.readable.length
  | prepend data => .pushFront data
  | unwrite len => .popBack len

/-- The assertion of the call holds, and a call that enters `makeSpace` takes its compaction
branch. -/
def Allowed (b : Buffer) : Call → Prop
  | .append data _ => b.writableBytes < data.length →
    data.length + kCheapPrepend ≤ b.writableBytes + b.prependableBytes
  | .retrieve len | .retrieveAsString len | .unwrite len => len ≤ b.readableBytes
  | .retrieveUntil endIndex => b.readerIndex_ ≤ endIndex ∧ endIndex ≤ b.writeIndex_
  | .prepend data => data.length ≤ b.prependableBytes
  | .retrieveAllAsString | .retrieveall => True

instance (b : Buffer) : DecidablePred b.Allowed
  | .append _ _ => inferInstanceAs (Decidable (_ → _))
  | .retrieve _ | .retrieveAsString _ | .unwrite _ | .prepend _ =>
    inferInstanceAs (Decidable (_ ≤ _))
  | .retrieveUntil _ => inferInstanceAs (Decidable (_ ∧ _))
  | .retrieveAllAsString | .retrieveall => .isTrue trivial

/-- The buffer after a call. -/
def call (b : Buffer) (c : Call) : Option Buffer :=
  (c.apply b).map Prod.snd

/-- The member function of a call, without the bytes that it returns. -/
def Call.toOp (b : Buffer) : Call → Op
  | append data fresh => .append data fresh
  | retrieve len => .retrieve len
  | retrieveUntil endIndex => .retrieveUntil endIndex
  | retrieveAsString len => .retrieveAsString len
  | retrieveAllAsString => .retrieveAsString b.readableBytes
  | prepend data => .prepend data
  | unwrite len => .unwrite len
  | retrieveall => .retrieveall

theorem call_eq_apply (b : Buffer) (c : Call) : b.call c = (c.toOp b).apply b := by
  cases c <;> simp [call, Call.apply, Call.toOp, Op.apply, retrieveAllAsString, Function.comp_def]

/-! ### One call -/

section Calls

variable {b : Buffer} (hi : b.Inv) (hs : b.Sized)

include hi in
private theorem write_le_capacity : b.writeIndex_ ≤ b.buffer_.capacity :=
  Nat.le_trans hi.write_le b.buffer_.size_le

include hi in
theorem length_readable : b.readable.length = b.writeIndex_ - b.readerIndex_ :=
  CharVector.length_slice (write_le_capacity hi)

include hi hs

theorem readableBytes_eq_length : b.readableBytes = b.readable.length := by
  rw [readableBytes_eq hi hs, length_readable hi]

/-- Compaction, whose assertions hold, leaves the readable bytes as they are. -/
theorem exists_makeSpace {len : ℕ} {fresh : ℕ → UInt8} (hlt : b.writableBytes < len)
    (hle : len + kCheapPrepend ≤ b.writableBytes + b.prependableBytes) :
    ∃ b', b.makeSpace len fresh = some b' ∧ b'.readable = b.readable := by
  have h1 := hi.reader_le
  have h2 := hi.write_le
  have h3 := hs.eq
  have hw := writableBytes_eq hi hs
  have hr := readableBytes_eq hi hs
  have hcap := write_le_capacity hi
  have hlen := length_readable hi
  simp only [kCheapPrepend, prependableBytes] at hle
  have hend : SizeT.add kCheapPrepend b.readableBytes = kCheapPrepend + b.readable.length := by
    rw [hr, hlen, SizeT.add_of_lt (by simp only [kCheapPrepend]; omega)]
  have hsub : SizeT.sub (kCheapPrepend + b.readable.length) kCheapPrepend = b.readableBytes := by
    rw [SizeT.sub_of_le (by omega) (by simp only [kCheapPrepend]; omega), hr, hlen]
    omega
  let b' : Buffer :=
    ⟨b.buffer_.write kCheapPrepend b.readable, kCheapPrepend, kCheapPrepend + b.readable.length⟩
  refine ⟨b', ?_, CharVector.slice_write_self (by simp only [kCheapPrepend]; omega)⟩
  rw [makeSpace, if_neg, if_pos (by simp only [kCheapPrepend]; omega)]
  · simp only [hend]
    exact if_pos hsub.symm
  · rw [prependableBytes, SizeT.add_of_lt (by omega),
      SizeT.add_of_lt (by simp only [kCheapPrepend]; omega)]
    simp only [kCheapPrepend]
    omega

/-- The branch that `makeSpace` takes is decided in `size_t`, where nothing wraps around here. -/
theorem not_takesReserve {data : List UInt8} {fresh : ℕ → UInt8}
    (hallowed : b.Allowed (.append data fresh)) : ¬ b.TakesReserve data.length := by
  have h1 := hi.reader_le
  have h2 := hi.write_le
  have h3 := hs.eq
  have hw := writableBytes_eq hi hs
  rintro ⟨hlt, hreserve⟩
  have hle := hallowed hlt
  rw [prependableBytes] at hle hreserve
  rw [SizeT.add_of_lt (by omega), SizeT.add_of_lt (by omega)] at hreserve
  omega

/-- An append that does not need `reserve` adds its bytes at the back. -/
theorem exists_append {data : List UInt8} {fresh : ℕ → UInt8}
    (hallowed : b.Allowed (.append data fresh)) :
    ∃ b', b.append data fresh = some b' ∧ b'.readable = b.readable ++ data := by
  have h1 := hi.reader_le
  have h2 := hi.write_le
  have h3 := hs.eq
  have hw := writableBytes_eq hi hs
  obtain ⟨c, hc, hread⟩ : ∃ c, b.ensureWritableBytes data.length fresh = some c ∧
      c.readable = b.readable := by
    rw [ensureWritableBytes]
    split_ifs with hlt
    · exact exists_makeSpace hi hs hlt (hallowed hlt)
    · exact ⟨b, rfl, rfl⟩
  have hdata : b.writeIndex_ + data.length < 2 ^ 64 := by
    by_cases hlt : b.writableBytes < data.length
    · have hle := hallowed hlt
      rw [prependableBytes] at hle
      omega
    · omega
  obtain ⟨hci, hroom⟩ :=
    hi.ensureWritableBytes hs (by omega) (not_takesReserve hi hs hallowed) hc
  have hfit := hroom hdata
  have hcap := c.buffer_.size_le
  have hsize : c.buffer_.size = 1032 := (size_ensureWritableBytes hc).trans h3
  refine ⟨_, by rw [append, hc, Option.map_some], ?_⟩
  have hend : SizeT.add c.writeIndex_ data.length = c.writeIndex_ + data.length :=
    SizeT.add_of_lt (by omega)
  rw [← hread]
  simp only [readable, hasWritten, hend]
  exact CharVector.slice_write_end hci.reader_le (Nat.le_trans hfit hcap)

/-- Taking bytes from the front moves `readerIndex_`, or resets both indices. -/
theorem exists_retrieve {len : ℕ} (hle : len ≤ b.readableBytes) :
    ∃ b', b.retrieve len = some b' ∧ b'.readable = b.readable.drop len := by
  have h1 := hi.reader_le
  have h2 := hi.write_le
  have h3 := hs.eq
  have hr := readableBytes_eq hi hs
  have hlen := length_readable hi
  rw [retrieve, if_pos hle]
  split_ifs with hlt
  · refine ⟨_, rfl, ?_⟩
    rw [readable, readable, CharVector.drop_slice, SizeT.add_of_lt (by omega)]
  · refine ⟨_, rfl, ?_⟩
    rw [List.drop_of_length_le (by omega)]
    simp [readable, retrieveall, CharVector.slice]

/-- The string that is returned is the front of the readable bytes. -/
theorem exists_retrieveAsString {len : ℕ} (hle : len ≤ b.readableBytes) :
    ∃ b', b.retrieveAsString len = some (b.readable.take len, b') ∧
      b'.readable = b.readable.drop len := by
  have h1 := hi.reader_le
  have hr := readableBytes_eq hi hs
  obtain ⟨b', hb', hread⟩ := exists_retrieve hi hs hle
  refine ⟨b', ?_, hread⟩
  rw [retrieveAsString, if_pos hle, hb', Option.map_some, readable,
    CharVector.take_slice (by omega)]

private theorem exists_prepend {data : List UInt8} (hle : data.length ≤ b.prependableBytes) :
    ∃ b', b.prepend data = some b' ∧ b'.readable = data ++ b.readable := by
  have h1 := hi.reader_le
  have h2 := hi.write_le
  have h3 := hs.eq
  have hcap := write_le_capacity hi
  rw [prependableBytes] at hle
  refine ⟨_, if_pos hle, ?_⟩
  have hsub : SizeT.sub b.readerIndex_ data.length = b.readerIndex_ - data.length :=
    SizeT.sub_of_le hle (by omega)
  simp only [readable, hsub]
  rw [CharVector.slice_write_front (by omega) (by omega), Nat.sub_add_cancel hle]

private theorem exists_unwrite {len : ℕ} (hle : len ≤ b.readableBytes) :
    ∃ b', b.unwrite len = some b' ∧
      b'.readable = b.readable.take (b.readable.length - len) := by
  have h1 := hi.reader_le
  have h2 := hi.write_le
  have h3 := hs.eq
  have hr := readableBytes_eq hi hs
  have hlen := length_readable hi
  refine ⟨_, if_pos hle, ?_⟩
  have hsub : SizeT.sub b.writeIndex_ len = b.writeIndex_ - len :=
    SizeT.sub_of_le (by omega) (by omega)
  simp only [readable, hsub]
  rw [CharVector.take_slice (by rw [← readable]; omega)]
  congr 1
  rw [← readable]
  omega

/-- An allowed call returns, and it acts on the readable bytes as the operation of the deque that it
stands for; the bytes that it returns are those taken from the deque. -/
theorem exists_apply_eq {c : Call} (hallowed : b.Allowed c) :
    ∃ r b' popped, c.apply b = some (r, b') ∧
      Deque.step b.readable (c.toDeque b) = some (popped, b'.readable) ∧
        ∀ s, r = some s → s = popped := by
  have hr := readableBytes_eq_length hi hs
  cases c with
  | append data fresh =>
    obtain ⟨b', hb', hread⟩ := exists_append hi hs hallowed
    exact ⟨none, b', [], by rw [Call.apply, hb', Option.map_some],
      by rw [hread]; rfl, by simp⟩
  | retrieve len =>
    obtain ⟨b', hb', hread⟩ := exists_retrieve hi hs hallowed
    exact ⟨none, b', b.readable.take len, by rw [Call.apply, hb', Option.map_some],
      by rw [hread]; exact if_pos (hr ▸ hallowed), by simp⟩
  | retrieveUntil endIndex =>
    obtain ⟨h1, h2⟩ := hallowed
    have hle : endIndex - b.readerIndex_ ≤ b.readableBytes := by
      rw [readableBytes_eq hi hs]
      exact Nat.sub_le_sub_right h2 _
    obtain ⟨b', hb', hread⟩ := exists_retrieve hi hs hle
    exact ⟨none, b', b.readable.take (endIndex - b.readerIndex_),
      by rw [Call.apply, retrieveUntil, if_pos ⟨h1, h2⟩, hb', Option.map_some],
      by rw [hread]; exact if_pos (hr ▸ hle), by simp⟩
  | retrieveAsString len =>
    obtain ⟨b', hb', hread⟩ := exists_retrieveAsString hi hs hallowed
    exact ⟨some (b.readable.take len), b', b.readable.take len,
      by rw [Call.apply, hb', Option.map_some], by rw [hread]; exact if_pos (hr ▸ hallowed),
      by simp⟩
  | retrieveAllAsString =>
    obtain ⟨b', hb', hread⟩ := exists_retrieveAsString hi hs (Nat.le_refl _)
    refine ⟨some (b.readable.take b.readableBytes), b', b.readable.take b.readableBytes,
      by rw [Call.apply, retrieveAllAsString, hb', Option.map_some], ?_, by simp⟩
    rw [hread, hr]
    exact if_pos (Nat.le_refl _)
  | prepend data =>
    obtain ⟨b', hb', hread⟩ := exists_prepend hi hs hallowed
    exact ⟨none, b', [], by rw [Call.apply, hb', Option.map_some],
      by rw [hread]; rfl, by simp⟩
  | unwrite len =>
    obtain ⟨b', hb', hread⟩ := exists_unwrite hi hs hallowed
    exact ⟨none, b', _, by rw [Call.apply, hb', Option.map_some],
      by rw [hread]; exact if_pos (hr ▸ hallowed), by simp⟩
  | retrieveall =>
    refine ⟨none, _, b.readable, rfl, ?_, by simp⟩
    have hread : b.retrieveall.readable = [] := by
      rw [readable, CharVector.slice, retrieveall, Nat.sub_self, List.take_zero]
    rw [Call.toDeque, Deque.step, if_pos (Nat.le_refl _), hread, List.take_length, List.drop_length]

/-- An allowed call keeps the representation invariant. -/
theorem inv_call {c : Call} (hallowed : b.Allowed c) {b' : Buffer} (h : b.call c = some b') :
    b'.Inv ∧ b'.Sized := by
  have h1 := hi.reader_le
  have h2 := hi.write_le
  have h3 := hs.eq
  have hr := readableBytes_eq hi hs
  have hw := writableBytes_eq hi hs
  rw [call_eq_apply] at h
  have hadm : (c.toOp b).Admissible b := by
    cases c with
    | append data fresh =>
      by_cases hlt : b.writableBytes < data.length
      · have hle := hallowed hlt
        rw [prependableBytes] at hle
        simp only [Call.toOp, Op.Admissible]
        omega
      · simp only [Call.toOp, Op.Admissible]
        omega
    | retrieve len | retrieveAsString len | unwrite len =>
      have hle : len ≤ b.readableBytes := hallowed
      simp only [Call.toOp, Op.Admissible]
      omega
    | prepend data =>
      have hle : data.length ≤ b.readerIndex_ := hallowed
      simp only [Call.toOp, Op.Admissible]
      omega
    | retrieveAllAsString =>
      simp only [Call.toOp, Op.Admissible]
      omega
    | retrieveUntil _ | retrieveall => trivial
  have hgrow : ¬ b.Grows (c.toOp b) := by
    cases c with
    | append data fresh => exact not_takesReserve hi hs hallowed
    | _ => exact id
  exact ⟨(hi.step hs ⟨hadm, h⟩ hgrow).1, hs.step ⟨hadm, h⟩⟩

end Calls

/-! ### Runs of calls -/

open Transition

@[simp] theorem readable_new (initialSize : ℕ) : (new initialSize).readable = [] := by
  simp [new, readable, CharVector.slice]

/-- A call on a buffer, with a deque beside it that makes the operation the call stands for. -/
def callBoth (p : Buffer × List UInt8) (c : Call) : Option (Buffer × List UInt8) :=
  (p.1.call c).bind fun b => (Deque.step p.2 (c.toDeque p.1)).map fun (_, q) => (b, q)

/-- A call that returns moves a buffer and the deque of its readable bytes together. -/
theorem callBoth_eq {b b' : Buffer} (hi : b.Inv) (hs : b.Sized) {c : Call} (hallowed : b.Allowed c)
    (hcall : b.call c = some b') : callBoth (b, b.readable) c = some (b', b'.readable) := by
  obtain ⟨r, b'', popped, happly, hstep, -⟩ := exists_apply_eq hi hs hallowed
  obtain rfl : b'' = b' := by
    rw [call, happly] at hcall
    exact Option.some.inj hcall
  rw [callBoth, hcall, Option.bind_some, hstep, Option.map_some]

/-- A deque beside a new buffer, empty at first, makes the operations that the allowed calls on the
buffer stand for. It holds the readable bytes whenever a buffer is reached, and nothing else. In
every buffer reached an allowed call returns, so that the assertions of `makeSpace` hold; it acts as
the operation of the deque, and the bytes that it returns are those taken. -/
theorem reaches_deque (initialSize : ℕ) {b : Buffer}
    (h : Reaches (ofStep call) Allowed (new initialSize) b) :
    (∀ q, Reaches (ofStep callBoth) (fun p => p.1.Allowed) (new initialSize, []) (b, q) ↔
        q = b.readable) ∧
      ∀ c, b.Allowed c → ∃ r b' popped, c.apply b = some (r, b') ∧
        Deque.step b.readable (c.toDeque b) = some (popped, b'.readable) ∧
          ∀ s, r = some s → s = popped := by
  have hinv {b : Buffer} (h : Reaches (ofStep call) Allowed (new initialSize) b) :
      b.Inv ∧ b.Sized :=
    h.invariant ⟨inv_new initialSize, sized_new initialSize⟩
      fun _ _ _ hu hallowed hcall => inv_call hu.1 hu.2 hallowed hcall
  refine ⟨fun q => ⟨fun hq => ?_, ?_⟩,
    fun c hallowed => exists_apply_eq (hinv h).1 (hinv h).2 hallowed⟩
  · -- what is kept by a step of both: the deque holds the readable bytes
    have hboth := hq.invariant (I := fun p => (p.1.Inv ∧ p.1.Sized) ∧ p.2 = p.1.readable)
      ⟨⟨inv_new initialSize, sized_new initialSize⟩, (readable_new initialSize).symm⟩
      fun u c v hu hallowed hstep => by
        obtain ⟨b, q⟩ := u
        obtain ⟨hu, rfl : q = b.readable⟩ := hu
        obtain ⟨b', hcall, -⟩ := Option.bind_eq_some_iff.mp hstep
        obtain rfl := Option.some.inj ((callBoth_eq hu.1 hu.2 hallowed hcall).symm.trans hstep)
        exact ⟨inv_call hu.1 hu.2 hallowed hcall, rfl⟩
    exact hboth.2
  · rintro rfl
    exact readable_new initialSize ▸ h.map (fun b => (b, b.readable)) fun u c v hu hallowed hcall =>
      (Reaches.refl _).snoc hallowed (callBoth_eq (hinv hu).1 (hinv hu).2 hallowed hcall)

/-- Three bytes are appended, one is retrieved and two are prepended. -/
theorem reaches_deque_prepend_two :
    ∃ b : Buffer, b.readable = [1, 2, 98, 99] ∧
      Reaches (ofStep callBoth) (fun p => p.1.Allowed) (new 1024, []) (b, [1, 2, 98, 99]) ∧
      ∃ r b' popped,
      Call.retrieveAllAsString.apply b = some (r, b') ∧
        Deque.step b.readable (Call.retrieveAllAsString.toDeque b) = some (popped, b'.readable) ∧
          ∀ s, r = some s → s = popped := by
  obtain ⟨b, hb, hread⟩ := Reaches.exists_of_run (C := Allowed) (s := new 1024)
    (P := fun b => b.readable = [1, 2, 98, 99]) call
    [.append [97, 98, 99] fun _ => 0, .retrieve 1, .prepend [1, 2]] (by decide +kernel)
  have hdeque := reaches_deque 1024 hb
  exact ⟨b, hread, (hdeque.1 _).mpr hread.symm, hdeque.2 .retrieveAllAsString trivial⟩

end Buffer

end TinyMuduo
