import Mathlib.Data.List.Basic
import TinyMuduo.Library.SizeT

/-!
# The network buffer

`Buffer` holds one block of bytes and two indices into it: the bytes before `readerIndex_` have
been read, those from `readerIndex_` to `writeIndex_` are readable, the rest of the vector is
writable. This file embeds `resoure/Buffer.h` and `resoure/Buffer.cpp`.

The size and the capacity of `std::vector<char>` are different things here: `reserve` grows the
block that the vector has allocated and leaves its size alone, and `std::copy` through a raw
pointer writes into the block whatever the size is. `CharVector` keeps both. All index arithmetic
is that of `size_t`.

An operation returns `none` when one of its assertions fails or when it throws. Operations that
may allocate take the bytes `fresh` that the allocator leaves in a new block.

## Main definitions

* `CharVector`, `CharVector.reserve`, `CharVector.write`.
* `Buffer`, with one definition for each member function of the class.
-/

namespace TinyMuduo

/-- A `std::vector<char>`: the allocated block, of which the first `size` bytes are the elements. -/
structure CharVector where
  block : List UInt8
  size : ℕ
  size_le : size ≤ block.length

namespace CharVector

/-- The vector of `n` zero bytes. -/
def zeros (n : ℕ) : CharVector := ⟨List.replicate n 0, n, by simp⟩

def capacity (v : CharVector) : ℕ := v.block.length

/-- The largest size a vector of bytes may ask for, `PTRDIFF_MAX`. -/
def maxSize : ℕ := 2 ^ 63 - 1

/-- `std::vector::reserve`. A block that is too small is replaced by one of `n` bytes, which
starts with the elements; neither the elements nor their number change. -/
def reserve (v : CharVector) (n : ℕ) (fresh : ℕ → UInt8) : Option CharVector :=
  if maxSize < n then none
  else if n ≤ v.capacity then some v
  else some
    { block := v.block.take v.size ++ (List.range (n - v.size)).map fresh
      size := v.size
      size_le := by
        have := v.size_le
        simp only [List.length_append, List.length_take]
        omega }

/-- The block `l` with `data` written from index `i` on; bytes that fall outside of it are lost. -/
def overwrite (l : List UInt8) (i : ℕ) (data : List UInt8) : List UInt8 :=
  (l.take i ++ data ++ l.drop (i + data.length)).take l.length

@[simp] theorem length_overwrite (l : List UInt8) (i : ℕ) (data : List UInt8) :
    (overwrite l i data).length = l.length := by
  simp only [overwrite, List.length_take, List.length_append, List.length_drop]
  omega

/-- `std::copy` of `data` to the address of index `i`. -/
def write (v : CharVector) (i : ℕ) (data : List UInt8) : CharVector :=
  ⟨overwrite v.block i data, v.size, by simpa using v.size_le⟩

/-- The bytes with indices from `i` up to `j`. -/
def slice (v : CharVector) (i j : ℕ) : List UInt8 := (v.block.drop i).take (j - i)

/-- The elements. -/
def toList (v : CharVector) : List UInt8 := v.block.take v.size

@[simp] theorem size_zeros (n : ℕ) : (zeros n).size = n := rfl

@[simp] theorem size_write (v : CharVector) (i : ℕ) (data : List UInt8) :
    (v.write i data).size = v.size := rfl

@[simp] theorem length_toList (v : CharVector) : v.toList.length = v.size := by
  simp [toList, v.size_le]

theorem size_reserve {v w : CharVector} {n : ℕ} {fresh : ℕ → UInt8}
    (h : v.reserve n fresh = some w) : w.size = v.size := by
  unfold reserve at h
  split_ifs at h <;> cases h <;> rfl

end CharVector

/-- The class `Buffer`. -/
structure Buffer where
  buffer_ : CharVector
  readerIndex_ : ℕ
  writeIndex_ : ℕ

namespace Buffer

def kCheapPrepend : ℕ := 8

def kInitialSize : ℕ := 1024

/-- The constructor. It sizes the vector by `kInitialSize`, whatever `initialSize` it is given. -/
def new (_initialSize : ℕ) : Buffer :=
  ⟨CharVector.zeros (kCheapPrepend + kInitialSize), kCheapPrepend, kCheapPrepend⟩

variable (b : Buffer)

def readableBytes : ℕ := SizeT.sub b.writeIndex_ b.readerIndex_

def writableBytes : ℕ := SizeT.sub b.buffer_.size b.writeIndex_

def prependableBytes : ℕ := b.readerIndex_

/-- The readable bytes, from `peek()` up to `beginWrite()`. -/
def readable : List UInt8 := b.buffer_.slice b.readerIndex_ b.writeIndex_

def retrieveall : Buffer :=
  { b with readerIndex_ := kCheapPrepend, writeIndex_ := kCheapPrepend }

def retrieve (len : ℕ) : Option Buffer :=
  if len ≤ b.readableBytes then
    if len < b.readableBytes then some { b with readerIndex_ := SizeT.add b.readerIndex_ len }
    else some b.retrieveall
  else none

/-- `retrieveUntil(end)`, the pointer `end` given by its index in the block. -/
def retrieveUntil (endIndex : ℕ) : Option Buffer :=
  if b.readerIndex_ ≤ endIndex ∧ endIndex ≤ b.writeIndex_ then
    b.retrieve (endIndex - b.readerIndex_)
  else none

def retrieveAsString (len : ℕ) : Option (List UInt8 × Buffer) :=
  if len ≤ b.readableBytes then
    (b.retrieve len).map fun b' =>
      (b.buffer_.slice b.readerIndex_ (b.readerIndex_ + len), b')
  else none

def retrieveAllAsString : Option (List UInt8 × Buffer) := b.retrieveAsString b.readableBytes

def hasWritten (len : ℕ) : Buffer := { b with writeIndex_ := SizeT.add b.writeIndex_ len }

def unwrite (len : ℕ) : Option Buffer :=
  if len ≤ b.readableBytes then some { b with writeIndex_ := SizeT.sub b.writeIndex_ len }
  else none

def prepend (data : List UInt8) : Option Buffer :=
  if data.length ≤ b.prependableBytes then
    let reader := SizeT.sub b.readerIndex_ data.length
    some { b with readerIndex_ := reader, buffer_ := b.buffer_.write reader data }
  else none

/-- `makeSpace(len)`: ask for a larger block, or move the readable bytes down to the cheap
prepend area. -/
def makeSpace (len : ℕ) (fresh : ℕ → UInt8) : Option Buffer :=
  if SizeT.add b.writableBytes b.prependableBytes < SizeT.add len kCheapPrepend then
    (b.buffer_.reserve (SizeT.add b.writeIndex_ len) fresh).map fun v => { b with buffer_ := v }
  else if kCheapPrepend < b.readerIndex_ then
    let readable := b.readableBytes
    let b' : Buffer :=
      { buffer_ := b.buffer_.write kCheapPrepend b.readable
        readerIndex_ := kCheapPrepend
        writeIndex_ := SizeT.add kCheapPrepend readable }
    if readable = b'.readableBytes then some b' else none
  else none

def ensureWritableBytes (len : ℕ) (fresh : ℕ → UInt8) : Option Buffer :=
  if b.writableBytes < len then b.makeSpace len fresh else some b

def append (data : List UInt8) (fresh : ℕ → UInt8) : Option Buffer :=
  (b.ensureWritableBytes data.length fresh).map fun b' =>
    { b' with buffer_ := b'.buffer_.write b'.writeIndex_ data }.hasWritten data.length

/-- The size of the stack buffer of `readFd`. -/
def extrabufSize : ℕ := 65536

/-- `readFd`, by what `readv` delivers: `none` for an error, and else the bytes, which fill the
writable area first and then the stack buffer. -/
def readFd (delivered : Option (List UInt8)) (fresh : ℕ → UInt8) : Option Buffer :=
  match delivered with
  | none => some b
  | some data =>
    let writable := b.writableBytes
    let b' := { b with buffer_ := b.buffer_.write b.writeIndex_ (data.take writable) }
    if data.length ≤ writable then some (b'.hasWritten data.length)
    else { b' with writeIndex_ := b'.buffer_.size }.append (data.drop writable) fresh

/-- `to_string`: all elements of the vector. -/
def to_string : List UInt8 := b.buffer_.toList

/-! ### The size of the vector never changes -/

variable {b} {b' : Buffer}

theorem size_retrieve {len : ℕ} (h : b.retrieve len = some b') :
    b'.buffer_.size = b.buffer_.size := by
  unfold retrieve at h
  split_ifs at h <;> cases h <;> rfl

theorem size_makeSpace {len : ℕ} {fresh : ℕ → UInt8} (h : b.makeSpace len fresh = some b') :
    b'.buffer_.size = b.buffer_.size := by
  unfold makeSpace at h
  split_ifs at h with hgrow
  · obtain ⟨v, hv, rfl⟩ := Option.map_eq_some_iff.mp h
    exact CharVector.size_reserve hv
  · dsimp only at h
    split_ifs at h
    cases h
    rfl

theorem size_ensureWritableBytes {len : ℕ} {fresh : ℕ → UInt8}
    (h : b.ensureWritableBytes len fresh = some b') : b'.buffer_.size = b.buffer_.size := by
  unfold ensureWritableBytes at h
  split_ifs at h
  · exact size_makeSpace h
  · cases h
    rfl

theorem size_append {data : List UInt8} {fresh : ℕ → UInt8} (h : b.append data fresh = some b') :
    b'.buffer_.size = b.buffer_.size := by
  obtain ⟨c, hc, rfl⟩ := Option.map_eq_some_iff.mp h
  have hsize := size_ensureWritableBytes hc
  exact hsize

theorem size_readFd {delivered : Option (List UInt8)} {fresh : ℕ → UInt8}
    (h : b.readFd delivered fresh = some b') : b'.buffer_.size = b.buffer_.size := by
  cases delivered with
  | none =>
    cases h
    rfl
  | some data =>
    simp only [readFd] at h
    split_ifs at h
    · cases h
      rfl
    · have hsize := size_append h
      exact hsize

end Buffer

end TinyMuduo
