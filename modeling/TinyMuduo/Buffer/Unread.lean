import TinyMuduo.Buffer.Deque

/-!
# How much a connection can buffer

A connection uses its two buffers as queues: bytes come in at the back by `append` and `readFd`, and
leave at the front. The cheap prepend area stays free. Such a buffer holds up to 1024 unread bytes,
wherever they lie in the vector: an operation that would leave more of them takes the `reserve`
branch of `makeSpace`, which ends with `writeIndex_` behind the elements, and every other one
returns, keeps the invariant and acts on the unread bytes as on a queue
(`Buffer.unread_of_reaches`).

## Main definitions

* `Buffer.Unread`: the invariant of a buffer that is used as a queue.
* `Buffer.Queue`, `Buffer.Queue.call`: the calls of a connection on its buffers, with a record of
  what went in and out.

## Main results

* `Buffer.Unread.exists_append`, `Buffer.Unread.exists_readFd`, `Buffer.Unread.exists_retrieve`: the
  calls that leave at most 1024 unread bytes.
* `Buffer.unread_of_reaches`: in every run of such calls the buffer is a queue, and the limit is
  exact.
-/

namespace TinyMuduo

namespace Buffer

/-- The indices are in order, the vector has its size, and the cheap prepend area is free. -/
structure Unread (b : Buffer) : Prop where
  inv : b.Inv
  sized : b.Sized
  reader_ge : kCheapPrepend ≤ b.readerIndex_

theorem unread_new (initialSize : ℕ) : (new initialSize).Unread :=
  ⟨inv_new initialSize, sized_new initialSize, Nat.le_refl _⟩

namespace Unread

variable {b b' : Buffer} (h : b.Unread)

include h

theorem readableBytes_eq_length : b.readableBytes = b.readable.length :=
  Buffer.readableBytes_eq_length h.inv h.sized

/-- What is free behind the unread bytes and in front of them. -/
theorem writable_add_prependable :
    b.writableBytes + b.prependableBytes = 1032 - b.readable.length ∧
      b.readable.length ≤ 1024 := by
  have h1 := h.inv.reader_le
  have h2 := h.inv.write_le
  have h3 := h.sized.eq
  have h4 := h.reader_ge
  rw [writableBytes_eq h.inv h.sized, length_readable h.inv, prependableBytes]
  rw [kCheapPrepend] at h4
  omega

/-- `makeSpace` asks for a larger block exactly if more than 1024 bytes would be unread. -/
theorem takesReserve_iff {len : ℕ} (hlen : len < 2 ^ 63) :
    b.TakesReserve len ↔ 1024 < b.readable.length + len := by
  have h1 := h.inv.reader_le
  have h2 := h.inv.write_le
  have h3 := h.sized.eq
  have h4 := h.reader_ge
  have h5 := writableBytes_eq h.inv h.sized
  have hfree := h.writable_add_prependable
  simp only [kCheapPrepend] at h4
  rw [TakesReserve, SizeT.add_of_lt (by omega),
    SizeT.add_of_lt (by simp only [kCheapPrepend]; omega), hfree.1]
  simp only [kCheapPrepend]
  rw [prependableBytes] at hfree
  omega

theorem allowed_append {data : List UInt8} {fresh : ℕ → UInt8}
    (hle : b.readable.length + data.length ≤ 1024) : b.Allowed (.append data fresh) := by
  have hfree := h.writable_add_prependable
  intro _
  simp only [kCheapPrepend]
  omega

/-- Compaction moves the unread bytes behind the cheap prepend area. -/
theorem reader_ge_append {data : List UInt8} {fresh : ℕ → UInt8}
    (hb' : b.append data fresh = some b') : kCheapPrepend ≤ b'.readerIndex_ := by
  obtain ⟨c, hc, rfl⟩ := Option.map_eq_some_iff.mp hb'
  change kCheapPrepend ≤ c.readerIndex_
  unfold ensureWritableBytes makeSpace at hc
  split_ifs at hc
  · obtain ⟨v, -, rfl⟩ := Option.map_eq_some_iff.mp hc
    exact h.reader_ge
  · dsimp only at hc
    split_ifs at hc
    obtain rfl := Option.some.inj hc
    exact Nat.le_refl _
  · obtain rfl := Option.some.inj hc
    exact h.reader_ge

theorem exists_append {data : List UInt8} (fresh : ℕ → UInt8)
    (hle : b.readable.length + data.length ≤ 1024) :
    ∃ b', b.append data fresh = some b' ∧ b'.Unread ∧ b'.readable = b.readable ++ data := by
  have hallowed : b.Allowed (.append data fresh) := h.allowed_append hle
  obtain ⟨b', hb', hread⟩ := Buffer.exists_append h.inv h.sized hallowed
  have hcall : b.call (.append data fresh) = some b' := by
    rw [call, Call.apply, hb']
    rfl
  obtain ⟨hinv, hsized⟩ := inv_call h.inv h.sized hallowed hcall
  exact ⟨b', hb', ⟨hinv, hsized, h.reader_ge_append hb'⟩, hread⟩

theorem exists_retrieve {len : ℕ} (hle : len ≤ b.readable.length) :
    ∃ b', b.retrieve len = some b' ∧ b'.Unread ∧ b'.readable = b.readable.drop len := by
  have h1 := h.inv.write_le
  have h2 := h.sized.eq
  have h3 := h.inv.reader_le
  have hlen := length_readable h.inv
  have hallowed : len ≤ b.readableBytes := h.readableBytes_eq_length ▸ hle
  obtain ⟨b', hb', hread⟩ := Buffer.exists_retrieve h.inv h.sized hallowed
  refine ⟨b', hb', ⟨inv_retrieve h.inv h.sized hb', (size_retrieve hb').trans h.sized, ?_⟩, hread⟩
  unfold retrieve at hb'
  split_ifs at hb'
  · obtain rfl := Option.some.inj hb'
    have hend : SizeT.add b.readerIndex_ len = b.readerIndex_ + len :=
      SizeT.add_of_lt (by omega)
    simp only [hend]
    exact Nat.le_trans h.reader_ge (Nat.le_add_right _ _)
  · obtain rfl := Option.some.inj hb'
    exact Nat.le_refl _

/-- A `retrieve` that returns takes no more than there is. -/
theorem le_of_retrieve {len : ℕ} (hb' : b.retrieve len = some b') : len ≤ b.readable.length := by
  rw [← h.readableBytes_eq_length]
  by_contra hgt
  simp [retrieve, hgt] at hb'

theorem retrieve {len : ℕ} (hb' : b.retrieve len = some b') : b'.Unread := by
  obtain ⟨c, hc, hunread, -⟩ := h.exists_retrieve (h.le_of_retrieve hb')
  obtain rfl := Option.some.inj (hc.symm.trans hb')
  exact hunread

theorem retrieveUntil {endIndex : ℕ} (hb' : b.retrieveUntil endIndex = some b') : b'.Unread := by
  rw [Buffer.retrieveUntil] at hb'
  split_ifs at hb'
  exact h.retrieve hb'

/-- A `readv` that fills the vector leaves the rest in the stack buffer. -/
theorem exists_spill {data : List UInt8} (fresh : ℕ → UInt8)
    (hspill : b.writableBytes < data.length) :
    ∃ c : Buffer, c.Unread ∧ c.readable = b.readable ++ data.take b.writableBytes ∧
      b.readFd (some data) fresh = c.append (data.drop b.writableBytes) fresh := by
  have h1 := h.inv.reader_le
  have h2 := h.inv.write_le
  have hw := writableBytes_eq h.inv h.sized
  have hcap := b.buffer_.size_le
  have hlen : (data.take b.writableBytes).length = b.writableBytes :=
    List.length_take_of_le (Nat.le_of_lt hspill)
  have hend : b.writeIndex_ + (data.take b.writableBytes).length = b.buffer_.size := by omega
  let c : Buffer := { b with
    buffer_ := b.buffer_.write b.writeIndex_ (data.take b.writableBytes)
    writeIndex_ := b.buffer_.size }
  refine ⟨c, ⟨⟨Nat.le_trans h1 h2, Nat.le_refl _⟩, h.sized, h.reader_ge⟩, ?_, ?_⟩
  · have hfit : b.writeIndex_ + (data.take b.writableBytes).length ≤ b.buffer_.capacity :=
      hend ▸ hcap
    have hslice := CharVector.slice_write_end h1 hfit
    rwa [hend] at hslice
  · simp only [readFd, if_neg (Nat.not_le.mpr hspill), CharVector.size_write, c]

/-- `readFd` adds what `readv` delivers, whether it fits behind the unread bytes or a part of it
comes by way of the stack buffer. -/
theorem exists_readFd {data : List UInt8} (fresh : ℕ → UInt8)
    (hle : b.readable.length + data.length ≤ 1024) :
    ∃ b', b.readFd (some data) fresh = some b' ∧ b'.Unread ∧
      b'.readable = b.readable ++ data := by
  have h1 := h.inv.reader_le
  have h2 := h.inv.write_le
  have h3 := h.sized.eq
  have hw := writableBytes_eq h.inv h.sized
  have hcap := b.buffer_.size_le
  by_cases hspill : b.writableBytes < data.length
  · obtain ⟨c, hc, hread, heq⟩ := h.exists_spill fresh hspill
    have hrest : c.readable.length + (data.drop b.writableBytes).length ≤ 1024 := by
      rw [hread, List.length_append, List.length_take, List.length_drop]
      omega
    obtain ⟨b', hb', hunread, hread'⟩ := hc.exists_append fresh hrest
    refine ⟨b', heq.trans hb', hunread, ?_⟩
    rw [hread', hread, List.append_assoc, List.take_append_drop]
  · have hfit : data.length ≤ b.writableBytes := Nat.not_lt.mp hspill
    have hend : SizeT.add b.writeIndex_ data.length = b.writeIndex_ + data.length :=
      SizeT.add_of_lt (by omega)
    refine ⟨_, by simp only [readFd, if_pos hfit, List.take_of_length_le hfit]; rfl, ?_, ?_⟩
    · refine ⟨⟨?_, ?_⟩, h.sized, h.reader_ge⟩
      · simp only [hasWritten, hend]
        omega
      · simp only [hasWritten, hend, CharVector.size_write]
        omega
    · simp only [readable, hasWritten, hend]
      exact CharVector.slice_write_end h1 (by rw [CharVector.capacity]; omega)

/-- An `append` that returns keeps the invariant exactly if at most 1024 bytes are unread then. -/
theorem inv_append_iff {data : List UInt8} {fresh : ℕ → UInt8} (hdata : data.length < 2 ^ 63)
    (hb' : b.append data fresh = some b') :
    b'.Inv ↔ b.readable.length + data.length ≤ 1024 := by
  refine ⟨fun hinv => ?_, fun hle => ?_⟩
  · by_contra hgt
    exact not_inv_append h.inv h.sized hdata
      ((h.takesReserve_iff hdata).mpr (Nat.not_le.mp hgt)) hb' hinv
  · obtain ⟨c, hc, hunread, -⟩ := h.exists_append fresh hle
    obtain rfl := Option.some.inj (hb'.symm.trans hc)
    exact hunread.inv

theorem inv_readFd_iff {data : List UInt8} {fresh : ℕ → UInt8} (hdata : data.length < 2 ^ 63)
    (hb' : b.readFd (some data) fresh = some b') :
    b'.Inv ↔ b.readable.length + data.length ≤ 1024 := by
  by_cases hspill : b.writableBytes < data.length
  · obtain ⟨c, hc, hread, heq⟩ := h.exists_spill fresh hspill
    have hiff := hc.inv_append_iff (by rw [List.length_drop]; omega) (heq.symm.trans hb')
    rw [hiff, hread, List.length_append, List.length_take, List.length_drop]
    omega
  · have hfree := h.writable_add_prependable
    have hle : b.readable.length + data.length ≤ 1024 := by
      have h4 := h.reader_ge
      rw [prependableBytes] at hfree
      rw [kCheapPrepend] at h4
      omega
    refine iff_of_true ?_ hle
    obtain ⟨c, hc, hunread, -⟩ := h.exists_readFd fresh hle
    obtain rfl := Option.some.inj (hb'.symm.trans hc)
    exact hunread.inv

end Unread

/-! ### Runs -/

/-- A buffer, with the bytes that went in and those that were taken out. -/
structure Queue where
  buffer : Buffer
  received : List UInt8
  taken : List UInt8

namespace Queue

/-- The calls of a connection: `sendInLoop` appends, `handleRead` reads, and both `handlewrite` and
the callbacks of the user take bytes out. -/
inductive Call
  | append (data : List UInt8) (fresh : ℕ → UInt8)
  | readFd (data : List UInt8) (fresh : ℕ → UInt8)
  | retrieve (len : ℕ)

/-- The bytes that a call adds. -/
def Call.data : Call → List UInt8
  | append data _ | readFd data _ => data
  | retrieve _ => []

/-- The buffer after a call. -/
def Call.apply (b : Buffer) : Call → Option Buffer
  | append data fresh => b.append data fresh
  | readFd data fresh => b.readFd (some data) fresh
  | retrieve len => b.retrieve len

/-- The queue after a call. -/
def call (q : Queue) (c : Call) : Option Queue :=
  (c.apply q.buffer).map fun b =>
    match c with
    | .append data _ | .readFd data _ => { q with buffer := b, received := q.received ++ data }
    | .retrieve len => { q with buffer := b, taken := q.taken ++ q.buffer.readable.take len }

/-- At most 1024 bytes are unread after the call. -/
def HasRoom (q : Queue) (c : Call) : Prop := q.buffer.readable.length + c.data.length ≤ 1024

instance (q : Queue) (c : Call) : Decidable (q.HasRoom c) := inferInstanceAs (Decidable (_ ≤ _))

def new (initialSize : ℕ) : Queue := ⟨Buffer.new initialSize, [], []⟩

/-- What holds of a buffer that is used as a queue. -/
structure Inv (q : Queue) : Prop where
  unread : q.buffer.Unread
  received : q.received = q.taken ++ q.buffer.readable

theorem Inv.call {q q' : Queue} (h : q.Inv) {c : Call} (hroom : q.HasRoom c)
    (hcall : q.call c = some q') : q'.Inv := by
  obtain ⟨b, hb, rfl⟩ := Option.map_eq_some_iff.mp hcall
  cases c with
  | append data fresh =>
    have hroom : q.buffer.readable.length + data.length ≤ 1024 := hroom
    obtain ⟨b', hb', hunread, hread⟩ := h.unread.exists_append fresh hroom
    obtain rfl := Option.some.inj (hb.symm.trans hb')
    exact ⟨hunread, by simp only [h.received, hread, List.append_assoc]⟩
  | readFd data fresh =>
    have hroom : q.buffer.readable.length + data.length ≤ 1024 := hroom
    obtain ⟨b', hb', hunread, hread⟩ := h.unread.exists_readFd fresh hroom
    obtain rfl := Option.some.inj (hb.symm.trans hb')
    exact ⟨hunread, by simp only [h.received, hread, List.append_assoc]⟩
  | retrieve len =>
    obtain ⟨b', hb', hunread, hread⟩ := h.unread.exists_retrieve (h.unread.le_of_retrieve hb)
    obtain rfl := Option.some.inj (hb.symm.trans hb')
    exact ⟨hunread, by simp only [h.received, hread, List.append_assoc, List.take_append_drop]⟩

/-- A call that leaves at most 1024 unread bytes, and takes no more than there are, returns. -/
theorem Inv.exists_call {q : Queue} (h : q.Inv) {c : Call} (hroom : q.HasRoom c)
    (htake : ∀ len, c = .retrieve len → len ≤ q.buffer.readable.length) :
    ∃ q', q.call c = some q' := by
  cases c with
  | append data fresh =>
    have hroom : q.buffer.readable.length + data.length ≤ 1024 := hroom
    obtain ⟨b, hb, -⟩ := h.unread.exists_append fresh hroom
    exact ⟨_, by rw [Queue.call, Call.apply, hb, Option.map_some]⟩
  | readFd data fresh =>
    have hroom : q.buffer.readable.length + data.length ≤ 1024 := hroom
    obtain ⟨b, hb, -⟩ := h.unread.exists_readFd fresh hroom
    exact ⟨_, by rw [Queue.call, Call.apply, hb, Option.map_some]⟩
  | retrieve len =>
    obtain ⟨b, hb, -⟩ := h.unread.exists_retrieve (htake len rfl)
    exact ⟨_, by rw [Queue.call, Call.apply, hb, Option.map_some]⟩

/-- A call keeps the invariant of the buffer exactly if at most 1024 bytes are unread then. -/
theorem Inv.inv_call_iff {q q' : Queue} (h : q.Inv) {c : Call} (hdata : c.data.length < 2 ^ 63)
    (hcall : q.call c = some q') : q'.buffer.Inv ↔ q.HasRoom c := by
  obtain ⟨b, hb, rfl⟩ := Option.map_eq_some_iff.mp hcall
  cases c with
  | append data fresh => exact h.unread.inv_append_iff hdata hb
  | readFd data fresh => exact h.unread.inv_readFd_iff hdata hb
  | retrieve len =>
    exact iff_of_true (inv_retrieve h.unread.inv h.unread.sized hb)
      h.unread.writable_add_prependable.2

end Queue

open Transition

/-- A buffer to which bytes are appended or read in, and from which they are taken, is a queue of
bytes as long as no more than 1024 bytes are unread: what went in is what was taken followed by what
is unread, and a call that leaves at most 1024 unread bytes returns. The limit is exact: a call that
returns keeps `readerIndex_ <= writeIndex_ <= buffer_.size()` exactly if at most 1024 bytes are
unread after it. -/
theorem unread_of_reaches (initialSize : ℕ) {q : Queue}
    (h : Reaches (ofStep Queue.call) Queue.HasRoom (.new initialSize) q) :
    q.received = q.taken ++ q.buffer.readable ∧
      (∀ c, q.HasRoom c → (∀ len, c = .retrieve len → len ≤ q.buffer.readable.length) →
        ∃ q', q.call c = some q') ∧
      ∀ c q', c.data.length < 2 ^ 63 → q.call c = some q' → (q'.buffer.Inv ↔ q.HasRoom c) := by
  have hinv : q.Inv := h.invariant (I := Queue.Inv)
    ⟨unread_new initialSize, by rw [Queue.new, readable_new]; rfl⟩
    fun _ _ _ hu hroom hcall => hu.call hroom hcall
  exact ⟨hinv.received, fun _ hroom htake => hinv.exists_call hroom htake,
    fun _ _ hdata hcall => hinv.inv_call_iff hdata hcall⟩

/-- 1000 bytes are read, 900 taken, and 100 more read: they do not fit behind the unread ones. -/
theorem unread_of_reaches_wrapped : ∃ q : Queue, q.buffer.readable.length = 200 ∧
    q.received = q.taken ++ q.buffer.readable := by
  obtain ⟨q, hreach, hlen⟩ := Reaches.exists_of_run (C := Queue.HasRoom) (s := Queue.new 0)
    (P := fun q => q.buffer.readable.length = 200) Queue.call
    [.readFd (List.replicate 1000 7) fun _ => 0, .retrieve 900,
      .readFd (List.replicate 100 8) fun _ => 0] (by decide +kernel)
  exact ⟨q, hlen, (unread_of_reaches 0 hreach).1⟩

end Buffer

end TinyMuduo
