import TinyMuduo.Buffer.Deque
import TinyMuduo.Http.RoundTrip
import TinyMuduo.Library.Reading

/-!
# The bytes that the parser reads

`HttpAnalyse::parseRequest` works with pointers into the block of a `Buffer`. This file embeds it,
with the functions it calls, as a program that reads bytes by their indices in the block, so that
it is known which bytes it reads and when. It is the parser of `TinyMuduo.Http.HttpAnalyse` on the
readable bytes. All bytes that it reads are readable at that time, but for one: at a header line
without a colon it reads the byte after the end of the line.

## Main definitions

* `Buffer.memory`: the bytes of the block, and whatever is behind it.
* `HttpAnalyse.Scan`, `HttpAnalyse.Scan.iterate`, `HttpAnalyse.Scan.loop`: the variables of
  `parseRequest`, one iteration of its loop, and the loop with its reads.
* `EndsAtLastLine`: the received bytes end with the first header line without a colon.

## Main results

* `HttpAnalyse.Scan.processHeadRequest_within`: the pointers of `processHeadRequest` stay in its
  range.
* `HttpAnalyse.Scan.toParse_loop`: the loop does what the byte queue does.
* `HttpAnalyse.reads_readable_iff`: which buffers make the loop read a byte that is not readable.
-/

namespace TinyMuduo

open Reading

/-! ### The readable bytes as a range -/

private theorem findCRLF_eq_placeOf (bytes : List UInt8) :
    findCRLF bytes = placeOf [13, 10] bytes := by
  induction bytes using findCRLF.induct with
  | case1 bytes => simp [findCRLF, placeOf]
  | case2 b bytes hne ih =>
    have hprefix : ¬ [13, 10].isPrefixOf (b :: bytes) = true := by
      rw [List.isPrefixOf_iff_prefix]
      rintro ⟨rest, hrest⟩
      obtain ⟨rfl, hbytes⟩ := List.cons.inj hrest
      exact hne rest rfl hbytes.symm
    rw [findCRLF.eq_2 _ _ hne, placeOf, if_neg hprefix, ih]
  | case3 => rfl

/-- The place at which the bytes are split is the first one with a `c`. -/
theorem splitAtByte_of_lt {c : UInt8} {bytes : List UInt8}
    (h : bytes.findIdx (· == c) < bytes.length) :
    splitAtByte c bytes = (bytes.take (bytes.findIdx (· == c)),
      some (bytes.drop (bytes.findIdx (· == c) + 1))) := by
  simp only [splitAtByte, List.takeWhile_eq_take_findIdx_not, List.dropWhile_eq_drop_findIdx_not,
    bne, Bool.not_not, List.drop_eq_getElem_cons h, List.tail?_cons]

private theorem splitAtByte_of_eq {c : UInt8} {bytes : List UInt8}
    (h : bytes.findIdx (· == c) = bytes.length) : splitAtByte c bytes = (bytes, none) := by
  simp only [splitAtByte, List.takeWhile_eq_take_findIdx_not, List.dropWhile_eq_drop_findIdx_not,
    bne, Bool.not_not, h, List.take_length, List.drop_length, List.tail?_nil]

namespace Buffer

/-- The byte at an index of the block. What is behind the block is arbitrary. -/
def memory (b : Buffer) (outside : ℕ → UInt8) (i : ℕ) : UInt8 :=
  b.buffer_.block.getD i (outside i)

/-- `findCRLF`, with indices for pointers. -/
def findCRLF (b : Buffer) : Reading UInt8 (Option ℕ) :=
  search [13, 10] b.readerIndex_ (b.writeIndex_ - b.readerIndex_)

/-- The indices are in order and in `size_t`, and readable bytes are in the block. -/
structure Bounded (b : Buffer) : Prop where
  reader_le : b.readerIndex_ ≤ b.writeIndex_
  write_lt : b.writeIndex_ < 2 ^ 64
  write_le : b.readerIndex_ < b.writeIndex_ → b.writeIndex_ ≤ b.buffer_.size

variable {b : Buffer}

theorem Inv.bounded (hb : b.Inv) (hsize : b.buffer_.size < 2 ^ 64) : b.Bounded :=
  ⟨hb.reader_le, hb.write_le.trans_lt hsize, fun _ => hb.write_le⟩

theorem Bounded.cells_memory (hb : b.Bounded) (outside : ℕ → UInt8) :
    cells (b.memory outside) b.readerIndex_ (b.writeIndex_ - b.readerIndex_) = b.readable := by
  rcases hb.reader_le.eq_or_lt with heq | hlt
  · rw [readable, CharVector.slice, heq, Nat.sub_self]
    rfl
  · have hcap := (hb.write_le hlt).trans b.buffer_.size_le
    have hlen : b.readable.length = b.writeIndex_ - b.readerIndex_ :=
      CharVector.length_slice hcap
    rw [← hlen]
    refine cells_eq fun k hk => ?_
    have hk' : b.readerIndex_ + k < b.buffer_.block.length := by omega
    rw [readable, CharVector.getElem?_slice, if_pos (by omega), memory, List.getD_eq_getElem?_getD,
      List.getElem?_eq_getElem hk', Option.getD_some]

theorem Bounded.findCRLF_within (hb : b.Bounded) (outside : ℕ → UInt8) :
    b.findCRLF.Within (b.memory outside) b.readerIndex_ b.writeIndex_
      ((TinyMuduo.findCRLF b.readable).map (b.readerIndex_ + ·)) := by
  have hle := hb.reader_le
  rw [findCRLF_eq_placeOf, ← hb.cells_memory outside]
  exact (search_within _ _ _).mono le_rfl (by omega)

/-- Taking bytes from the front moves `readerIndex_`, or resets both indices. -/
theorem Bounded.exists_retrieveUntil (hb : b.Bounded) {endIndex : ℕ}
    (hlo : b.readerIndex_ ≤ endIndex) (hhi : endIndex ≤ b.writeIndex_) :
    ∃ b', b.retrieveUntil endIndex = some b' ∧ b'.Bounded ∧ b'.buffer_ = b.buffer_ ∧
      b'.readable = b.readable.drop (endIndex - b.readerIndex_) ∧
      (b'.readable ≠ [] → b'.writeIndex_ = b.writeIndex_) := by
  have hreadable : b.readableBytes = b.writeIndex_ - b.readerIndex_ :=
    SizeT.sub_of_le hb.reader_le hb.write_lt
  have hwrite := hb.write_lt
  have hnil : (CharVector.slice b.buffer_ kCheapPrepend kCheapPrepend) = [] := by
    simp [CharVector.slice]
  rw [retrieveUntil, if_pos ⟨hlo, hhi⟩, retrieve, hreadable, if_pos (by omega)]
  split_ifs with hlt
  · rw [SizeT.add_of_lt (by omega), Nat.add_sub_cancel' hlo]
    refine ⟨_, rfl, ⟨hhi, hwrite, fun _ => hb.write_le (by omega)⟩, rfl, ?_, fun _ => rfl⟩
    rw [readable, readable, CharVector.drop_slice, Nat.add_sub_cancel' hlo]
  · have hdrop : b.readable.drop (endIndex - b.readerIndex_) = [] := by
      rw [readable, CharVector.drop_slice, CharVector.slice, Nat.add_sub_cancel' hlo,
        show b.writeIndex_ - endIndex = 0 by omega, List.take_zero]
    refine ⟨b.retrieveall, rfl, ⟨le_rfl, (by decide : kCheapPrepend < 2 ^ 64),
      fun h => absurd h (lt_irrefl _)⟩, rfl, ?_, fun h => absurd hnil h⟩
    rw [hdrop]
    exact hnil

end Buffer

/-! ### The member functions over pointers -/

namespace HttpAnalyse

/-- The variables of `parseRequest`, with the buffer itself. -/
structure Scan where
  analyse : HttpAnalyse
  buffer : Buffer
  ok : Bool
  hasmore : Bool

namespace Scan

/-- `HttpRequest::setMethod`. -/
def setMethod (request : HttpRequest) (start end_ : ℕ) : Reading UInt8 (HttpRequest × Bool) := do
  return request.setMethod (← copy start (end_ - start))

/-- `HttpRequest::setPath`. -/
def setPath (request : HttpRequest) (start end_ : ℕ) : Reading UInt8 HttpRequest := do
  return request.setPath (← copy start (end_ - start))

/-- `HttpRequest::setQuery`. -/
def setQuery (request : HttpRequest) (start end_ : ℕ) : Reading UInt8 HttpRequest := do
  return request.setQuery (← copy start (end_ - start))

/-- `HttpRequest::addHeader`. Nothing bounds `strspn` but the bytes it finds; here it fails behind
the `capacity` bytes of the block. -/
def addHeader (capacity : ℕ) (request : HttpRequest) (start colon end_ : ℕ) :
    Reading UInt8 HttpRequest := do
  let field ← copy start (colon - start)
  let colon ← skip isBlank (colon + 1) (capacity - (colon + 1))
  let value ← copy colon (end_ - colon)
  return { request with header_ := request.header_.insert field (value.rdropWhile isspace) }

/-- The path and the query of `processHeadRequest`. -/
def setTarget (request : HttpRequest) (space start : ℕ) : Reading UInt8 HttpRequest := do
  let question ← find (· == 63) space (start - space)
  if question ≠ start then setQuery (← setPath request space question) question start
  else setPath request space question

/-- The version of `processHeadRequest`, from `space` on. -/
def processVersion (request : HttpRequest) (space end_ : ℕ) :
    Reading UInt8 (HttpRequest × Bool) := do
  if end_ = space + 8 then
    if ← startsWith (bytesOf "HTTP/1.") space (end_ - 1 - space) then
      if (← read (end_ - 1)) = 49 then return (request.set_version .HTTP11, true)
      else if (← read (end_ - 1)) = 48 then return (request.set_version .HTTP10, true)
      else return (request, false)
    else return (request, false)
  else return (request, false)

/-- `processHeadRequest`. Without a second space, `space` ends up behind `end_`. -/
def processHeadRequest (request : HttpRequest) (begin_ end_ : ℕ) :
    Reading UInt8 (HttpRequest × Bool) := do
  let space ← find (· == 32) begin_ (end_ - begin_)
  if space ≠ end_ then
    let (request, isMethod) ← setMethod request begin_ space
    if isMethod then
      let space := space + 1
      let start ← find (· == 32) space (end_ - space)
      let request ← (if start ≠ end_ then setTarget request space start else return request)
      processVersion request (start + 1) end_
    else return (request, false)
  else return (request, false)

/-- The iteration in `CHECK_STATE_REQUESTLINE`. -/
def requestLine (p : Scan) : Reading UInt8 Scan := do
  match ← p.buffer.findCRLF with
  | some crlf =>
    let (request, ok) ← processHeadRequest p.analyse.request_ p.buffer.readerIndex_ crlf
    if ok then
      let buffer ← ofOption (p.buffer.retrieveUntil (crlf + 2))
      return { p with analyse := ⟨.CHECK_STATE_HEADER, request⟩, buffer := buffer, ok := true }
    else
      return { p with
        analyse := { p.analyse with request_ := request }
        ok := false
        hasmore := false }
  | none => return { p with hasmore := false }

/-- What the line that ends at `pr` makes of the parser and of `hasmore`. -/
def headerLine (p : Scan) (pr : ℕ) : Reading UInt8 (HttpAnalyse × Bool) := do
  let colon ← find (· == 58) p.buffer.readerIndex_ (pr - p.buffer.readerIndex_)
  if colon ≠ pr then
    let request ← addHeader p.buffer.buffer_.capacity p.analyse.request_ p.buffer.readerIndex_
      colon pr
    return ({ p.analyse with request_ := request }, p.hasmore)
  else if (← read (colon + 2)) = 0 then
    return ({ p.analyse with m_state_ := .CHECK_STATE_OVER }, false)
  else return ({ p.analyse with m_state_ := .CHECK_STATE_CONTENT }, p.hasmore)

/-- The iteration in `CHECK_STATE_HEADER`. -/
def header (p : Scan) : Reading UInt8 Scan := do
  match ← p.buffer.findCRLF with
  | some pr =>
    let (analyse, hasmore) ← p.headerLine pr
    let buffer ← ofOption (p.buffer.retrieveUntil (pr + 2))
    return ⟨analyse, buffer, p.ok, hasmore⟩
  | none => return { p with hasmore := false }

/-- One iteration of the loop of `parseRequest`. -/
def iterate (p : Scan) : Reading UInt8 Scan :=
  match p.analyse.m_state_ with
  | .CHECK_STATE_REQUESTLINE => p.requestLine
  | .CHECK_STATE_HEADER => p.header
  | .CHECK_STATE_CONTENT => return { p with
      analyse := { p.analyse with m_state_ := .CHECK_STATE_OVER }
      hasmore := false }
  | .CHECK_STATE_OVER => return p

/-- The variables with the readable bytes for the buffer. -/
def toParse (p : Scan) : Parse := ⟨p.analyse, p.buffer.readable, p.ok, p.hasmore⟩

/-! ### What the member functions do with the bytes of a range -/

section Ranges

variable {m : ℕ → UInt8} {request : HttpRequest} {start end_ : ℕ}

private theorem findIdx_le_cells (p : UInt8 → Bool) (i n : ℕ) : (cells m i n).findIdx p ≤ n :=
  List.findIdx_le_length.trans_eq (length_cells i n)

/-- A copy of the front of a segment. -/
theorem copy_take_within {β : Type} (f : List UInt8 → β) {k : ℕ} (h : start ≤ end_)
    (hk : k ≤ end_ - start) :
    (copy start (start + k - start) >>= fun bytes => pure (f bytes)).Within m start end_
      (f ((cells m start (end_ - start)).take k)) := by
  rw [take_cells _ hk, Nat.add_sub_cancel_left]
  exact ((copy_within _ _).mono le_rfl (by omega)).bind (within_pure _)

theorem setTarget_within (request : HttpRequest) (h : start ≤ end_) :
    (setTarget request start end_).Within m start end_
      (let target := cells m start (end_ - start)
       let request := request.setPath (target.takeWhile (· != 63))
       if target.dropWhile (· != 63) = [] then request
       else request.setQuery (target.dropWhile (· != 63))) := by
  have hle := findIdx_le_cells (m := m) (· == 63) start (end_ - start)
  refine ((find_within _ start (end_ - start)).mono le_rfl (by omega)).bind ?_
  simp only [List.takeWhile_eq_take_findIdx_not, List.dropWhile_eq_drop_findIdx_not, bne,
    Bool.not_not, List.drop_eq_nil_iff, length_cells]
  set k := (cells m start (end_ - start)).findIdx (· == 63)
  have hpath : (setPath request start (start + k)).Within m start end_
      (request.setPath ((cells m start (end_ - start)).take k)) :=
    copy_take_within request.setPath h hle
  split_ifs with hne hlen hlen
  · omega
  · refine hpath.bind (((copy_within _ _).mono (by omega) (by omega)).bind ?_)
    rw [drop_cells, Nat.sub_add_eq]
    exact within_pure _
  · exact hpath
  · omega

/-- Too few or too many bytes are no version, wherever `start` is. -/
theorem processVersion_within_of_ne (h : end_ ≠ start + 8) (lo hi : ℕ) :
    (Scan.processVersion request start end_).Within m lo hi (request, false) := by
  rw [Scan.processVersion, if_neg h]
  exact within_pure _

theorem processVersion_within :
    (Scan.processVersion request start end_).Within m start end_
      (HttpAnalyse.processVersion request (cells m start (end_ - start))) := by
  by_cases hend : end_ = start + 8
  · have hlen : (cells m start (end_ - start)).length = 8 := by
      rw [length_cells]
      omega
    have htake : (cells m start (end_ - start)).take 7 = cells m start (end_ - 1 - start) := by
      rw [take_cells _ (by omega)]
      congr 1
      omega
    have hlast : (cells m start (end_ - start)).getLast? = some (m (end_ - 1)) := by
      rw [List.getLast?_eq_getElem?, hlen, getElem?_cells _ (by omega)]
      congr 2
      omega
    have hprefix : (bytesOf "HTTP/1.").isPrefixOf (cells m start (end_ - 1 - start)) = true ↔
        cells m start (end_ - 1 - start) = bytesOf "HTTP/1." := by
      rw [List.isPrefixOf_iff_prefix]
      refine ⟨fun hpre => (hpre.eq_of_length ?_).symm, fun heq => heq ▸ List.prefix_rfl⟩
      rw [length_cells]
      exact (by omega : 7 = end_ - 1 - start)
    have hread : (read (end_ - 1)).Within m start end_ (m (end_ - 1)) :=
      within_read (by omega) (by omega)
    rw [Scan.processVersion, if_pos hend]
    refine ((startsWith_within _ _ _).mono le_rfl (by omega)).bind ?_
    simp only [HttpAnalyse.processVersion, hlen, htake, hlast, hprefix, true_and,
      Option.some.injEq]
    split_ifs with hhttp hone hzero
    · exact hread.bind (by rw [if_pos hone]; exact within_pure _)
    · refine hread.bind ?_
      rw [if_neg hone]
      exact hread.bind (by rw [if_pos hzero]; exact within_pure _)
    · refine hread.bind ?_
      rw [if_neg hone]
      exact hread.bind (by rw [if_neg hzero]; exact within_pure _)
    · exact within_pure _
  · refine (processVersion_within_of_ne hend _ _).of_eq ?_
    rw [HttpAnalyse.processVersion, if_neg]
    rw [length_cells]
    omega

/-- What `processHeadRequest` does from the first space on. -/
theorem processTarget_within (h : start ≤ end_) :
    (do
      let second ← find (· == 32) start (end_ - start)
      let request ← (if second ≠ end_ then setTarget request start second else return request)
      Scan.processVersion request (second + 1) end_ :
      Reading UInt8 (HttpRequest × Bool)).Within m start end_
      (match splitAtByte 32 (cells m start (end_ - start)) with
      | (_, none) => (request, false)
      | (target, some version) =>
        let path := target.takeWhile (· != 63)
        let query := target.dropWhile (· != 63)
        let request := request.setPath path
        HttpAnalyse.processVersion (if query = [] then request else request.setQuery query)
          version) := by
  have hle := findIdx_le_cells (m := m) (· == 32) start (end_ - start)
  refine ((find_within _ start (end_ - start)).mono le_rfl (by omega)).bind ?_
  rcases hle.eq_or_lt with heq | hlt
  · rw [if_neg (by omega), splitAtByte_of_eq (by rw [heq, length_cells])]
    exact (within_pure _).bind (processVersion_within_of_ne (by omega) _ _)
  · rw [if_pos (by omega), splitAtByte_of_lt (by rwa [length_cells])]
    set k := (cells m start (end_ - start)).findIdx (· == 32)
    have htarget := (setTarget_within (m := m) request
      (Nat.le_add_right start k)).mono le_rfl (by omega : start + k ≤ end_)
    rw [Nat.add_sub_cancel_left] at htarget
    refine htarget.bind ?_
    rw [take_cells _ hle, drop_cells, show end_ - start - (k + 1) = end_ - (start + k + 1) by omega]
    exact processVersion_within.mono (by omega) le_rfl

/-- On a range of bytes `processHeadRequest` does what it does on the list of these bytes. -/
theorem processHeadRequest_within (request : HttpRequest) (h : start ≤ end_) :
    (Scan.processHeadRequest request start end_).Within m start end_
      (HttpAnalyse.processHeadRequest request (cells m start (end_ - start))) := by
  have hle := findIdx_le_cells (m := m) (· == 32) start (end_ - start)
  refine ((find_within _ start (end_ - start)).mono le_rfl (by omega)).bind ?_
  unfold HttpAnalyse.processHeadRequest
  rcases hle.eq_or_lt with heq | hlt
  · rw [if_neg (by omega), splitAtByte_of_eq (by rw [heq, length_cells])]
    exact within_pure _
  · rw [if_pos (by omega), splitAtByte_of_lt (by rwa [length_cells])]
    set k := (cells m start (end_ - start)).findIdx (· == 32)
    have hmethod : (setMethod request start (start + k)).Within m start end_
        (request.setMethod ((cells m start (end_ - start)).take k)) :=
      copy_take_within request.setMethod h hle
    refine hmethod.bind ?_
    have hrest : (cells m start (end_ - start)).drop (k + 1) =
        cells m (start + k + 1) (end_ - (start + k + 1)) := by
      rw [drop_cells]
      congr 1
      omega
    simp only [hrest]
    generalize request.setMethod ((cells m start (end_ - start)).take k) = r
    obtain ⟨request, isMethod⟩ := r
    cases isMethod with
    | false => exact within_pure _
    | true =>
      exact (processTarget_within (by omega)).mono (by omega) le_rfl

/-- The end of the line stops `strspn`. -/
theorem addHeader_within {capacity colon : ℕ} (hstart : start ≤ colon) (hcolon : colon < end_)
    (hcap : end_ < capacity) (hstop : m end_ = 13) :
    (Scan.addHeader capacity request start colon end_).Within m start (end_ + 1)
      (request.addHeader (cells m start (colon - start))
        (cells m (colon + 1) (end_ - (colon + 1)))) := by
  have hblank : isBlank (m (colon + 1 + (end_ - (colon + 1)))) = false := by
    rw [Nat.add_sub_cancel' hcolon, hstop]
    rfl
  have hle := findIdx_le_cells (m := m) (! isBlank ·) (colon + 1) (end_ - (colon + 1))
  refine ((copy_within _ _).mono le_rfl (by omega)).bind ?_
  refine ((skip_within isBlank (by omega) hblank).mono (by omega) (by omega)).bind ?_
  refine ((copy_within _ _).mono (by omega) (by omega)).bind ?_
  rw [HttpRequest.addHeader, HttpRequest.headerValue, List.dropWhile_eq_drop_findIdx_not,
    drop_cells, Nat.sub_sub]
  exact within_pure _

end Ranges

/-! ### One iteration -/

section Lines

variable {m : ℕ → UInt8} {p : Scan} {pr : ℕ} {field bytes : List UInt8}

/-- A line with a colon. -/
theorem headerLine_within (hpr : p.buffer.readerIndex_ ≤ pr)
    (hcolon : splitAtByte 58 (cells m p.buffer.readerIndex_ (pr - p.buffer.readerIndex_)) =
      (field, some bytes))
    (hcap : pr < p.buffer.buffer_.capacity) (hstop : m pr = 13) :
    (p.headerLine pr).Within m p.buffer.readerIndex_ (pr + 1)
      ({ p.analyse with request_ := p.analyse.request_.addHeader field bytes }, p.hasmore) := by
  have hle := findIdx_le_cells (m := m) (· == 58) p.buffer.readerIndex_
    (pr - p.buffer.readerIndex_)
  refine ((find_within _ _ _).mono le_rfl (by omega)).bind ?_
  rcases hle.eq_or_lt with heq | hlt
  · rw [splitAtByte_of_eq (by rw [heq, length_cells])] at hcolon
    cases hcolon
  · rw [splitAtByte_of_lt (by rwa [length_cells]), take_cells _ hle, drop_cells] at hcolon
    obtain ⟨rfl, hbytes⟩ := Prod.mk.inj hcolon
    obtain rfl := Option.some.inj hbytes
    rw [if_pos (by omega)]
    refine ((addHeader_within (by omega) (by omega) hcap hstop).of_eq ?_).bind (within_pure _)
    rw [Nat.add_sub_cancel_left, Nat.sub_sub, ← Nat.add_assoc]

/-- At a line without a colon the byte after the end of the line is read, and it is the only one
behind the line. -/
theorem headerLine_last (hpr : p.buffer.readerIndex_ ≤ pr)
    (hcolon : splitAtByte 58 (cells m p.buffer.readerIndex_ (pr - p.buffer.readerIndex_)) =
      (field, none)) :
    ∃ log, p.headerLine pr m = some
        (if m (pr + 2) = 0 then ({ p.analyse with m_state_ := .CHECK_STATE_OVER }, false)
          else ({ p.analyse with m_state_ := .CHECK_STATE_CONTENT }, p.hasmore),
          log ++ [pr + 2]) ∧
      ∀ i ∈ log, p.buffer.readerIndex_ ≤ i ∧ i < pr := by
  have hle := findIdx_le_cells (m := m) (· == 58) p.buffer.readerIndex_
    (pr - p.buffer.readerIndex_)
  rcases hle.eq_or_lt with heq | hlt
  · obtain ⟨log, hlog, hin⟩ := find_within (m := m) (· == 58) p.buffer.readerIndex_
      (pr - p.buffer.readerIndex_)
    rw [heq] at hlog
    rw [Nat.add_sub_cancel' hpr] at hlog hin
    refine ⟨log, bind_eq hlog ?_, hin⟩
    rw [if_neg (by simp)]
    refine bind_eq_of_nil (read_eq (pr + 2)) ?_
    split_ifs <;> rfl
  · rw [splitAtByte_of_lt (by rwa [length_cells])] at hcolon
    cases hcolon

end Lines

section Iteration

variable {p p' : Scan} {k : ℕ}

/-- What a line that ends at `k` means for the memory. -/
theorem memory_of_findCRLF {b : Buffer} (hb : b.Bounded) (outside : ℕ → UInt8)
    (hk : findCRLF b.readable = some k) :
    b.readerIndex_ + k + 2 ≤ b.writeIndex_ ∧
      cells (b.memory outside) b.readerIndex_ k = b.readable.take k ∧
      b.memory outside (b.readerIndex_ + k) = 13 ∧
      (b.readable.drop (k + 2)).headD (b.memory outside b.writeIndex_) =
        b.memory outside (b.readerIndex_ + k + 2) := by
  have hcells := hb.cells_memory outside
  have hle := add_two_le_of_findCRLF hk
  have hbytes := eq_endLine_append_of_findCRLF hk
  have hreader := hb.reader_le
  rw [← hcells, length_cells] at hle
  refine ⟨by omega, ?_, ?_, ?_⟩
  · rw [← hcells, take_cells _ (by omega)]
  · have hget : b.readable[k]? = some 13 := by
      rw [hbytes, endLine, List.append_assoc,
        List.getElem?_append_right (List.length_take_le _ _)]
      simp only [List.length_take, ← hcells, length_cells]
      rw [Nat.min_eq_left (by omega), Nat.sub_self]
      rfl
    rw [← hcells, getElem?_cells _ (by omega)] at hget
    exact Option.some.inj hget
  · rw [← hcells, drop_cells]
    rcases Nat.eq_or_lt_of_le hle with heq | hlt
    · rw [heq, Nat.sub_self, cells, List.headD_nil]
      congr 1
      omega
    · obtain ⟨n, hn⟩ := Nat.exists_eq_succ_of_ne_zero (Nat.sub_ne_zero_of_lt hlt)
      rw [hn, cells, List.headD_cons, Nat.add_assoc]

/-- The buffer after an iteration. -/
structure Follows (p p' : Scan) : Prop where
  bounded : p'.buffer.Bounded
  block_eq : p'.buffer.buffer_ = p.buffer.buffer_
  write_eq : p'.buffer.readable ≠ [] → p'.buffer.writeIndex_ = p.buffer.writeIndex_

/-- Taking a line with its end from the readable bytes. -/
theorem exists_retrieve_line {b : Buffer} (hb : b.Bounded)
    (hle : b.readerIndex_ + k + 2 ≤ b.writeIndex_) :
    ∃ b', b.retrieveUntil (b.readerIndex_ + k + 2) = some b' ∧ b'.Bounded ∧
      b'.buffer_ = b.buffer_ ∧ b'.readable = b.readable.drop (k + 2) ∧
      (b'.readable ≠ [] → b'.writeIndex_ = b.writeIndex_) := by
  have hlen : b.readerIndex_ + k + 2 - b.readerIndex_ = k + 2 := by omega
  simpa only [hlen] using hb.exists_retrieveUntil (by omega) hle

private theorem follows_of_eq (hb : p.buffer.Bounded) (h : p'.buffer = p.buffer) : p.Follows p' :=
  ⟨h ▸ hb, congrArg _ h, fun _ => congrArg _ h⟩

/-- In `CHECK_STATE_REQUESTLINE` only readable bytes are read. -/
theorem requestLine_within (hb : p.buffer.Bounded) (outside : ℕ → UInt8) :
    ∃ p', p.requestLine.Within (p.buffer.memory outside) p.buffer.readerIndex_
        p.buffer.writeIndex_ p' ∧
      p'.toParse = p.toParse.requestLine ∧ p.Follows p' := by
  have hfind := hb.findCRLF_within outside
  cases hk : findCRLF p.buffer.readable with
  | none =>
    rw [hk] at hfind
    refine ⟨_, hfind.bind (within_pure _), ?_, follows_of_eq hb rfl⟩
    simp only [toParse, Parse.requestLine, hk]
  | some k =>
    obtain ⟨hle, hline, -, -⟩ := memory_of_findCRLF hb outside hk
    obtain ⟨b', hretrieve, hb', hblock, hdrop, hwrite⟩ := exists_retrieve_line hb hle
    rw [hk] at hfind
    have hhead := (processHeadRequest_within (m := p.buffer.memory outside) p.analyse.request_
      (Nat.le_add_right p.buffer.readerIndex_ k)).mono le_rfl (by omega : _ ≤ p.buffer.writeIndex_)
    rw [Nat.add_sub_cancel_left, hline] at hhead
    rcases hres : HttpAnalyse.processHeadRequest p.analyse.request_ (p.buffer.readable.take k) with
      ⟨request, _ | _⟩
    · rw [hres] at hhead
      refine ⟨_, hfind.bind (hhead.bind (within_pure _)), ?_, follows_of_eq hb rfl⟩
      simp only [toParse, Parse.requestLine, hk, hres]
      rfl
    · rw [hres] at hhead
      refine ⟨_, hfind.bind (hhead.bind ((within_ofOption hretrieve).bind (within_pure _))), ?_,
        hb', hblock, hwrite⟩
      simp only [toParse, Parse.requestLine, hk, hres, hdrop]
      rfl

/-- The bytes are a line without a colon, with its end and nothing behind it. -/
def IsLastLine (bytes : List UInt8) : Prop :=
  ∃ k field, findCRLF bytes = some k ∧ splitAtByte 58 (bytes.take k) = (field, none) ∧
    bytes.drop (k + 2) = []

private theorem not_isLastLine {bytes : List UInt8} (hk : findCRLF bytes = some k)
    {r : List UInt8 × Option (List UInt8)} (hcolon : splitAtByte 58 (bytes.take k) = r)
    (h : r.2 ≠ none ∨ bytes.drop (k + 2) ≠ []) : ¬ IsLastLine bytes := by
  rintro ⟨k', field, hk', hcolon', hdrop⟩
  obtain rfl := Option.some.inj (hk.symm.trans hk')
  obtain rfl := hcolon.symm.trans hcolon'
  exact h.elim (fun hne => hne rfl) (fun hne => hne hdrop)

/-- In `CHECK_STATE_HEADER` the byte behind the readable ones is read exactly when they are a line
without a colon. -/
theorem exists_header (hb : p.buffer.Bounded) (outside : ℕ → UInt8) :
    ∃ p' log, p.header (p.buffer.memory outside) = some (p', log) ∧
      p'.toParse = p.toParse.header (p.buffer.memory outside p.buffer.writeIndex_) ∧
      p.Follows p' ∧
      ((∀ i ∈ log, p.buffer.readerIndex_ ≤ i ∧ i < p.buffer.writeIndex_) ↔
        ¬ IsLastLine p.buffer.readable) := by
  have hfind := hb.findCRLF_within outside
  cases hk : findCRLF p.buffer.readable with
  | none =>
    rw [hk] at hfind
    have hwithin : p.header.Within (p.buffer.memory outside) p.buffer.readerIndex_
        p.buffer.writeIndex_ { p with hasmore := false } := hfind.bind (within_pure _)
    obtain ⟨log, hlog, hin⟩ := hwithin
    refine ⟨_, log, hlog, ?_, follows_of_eq hb rfl, iff_of_true hin ?_⟩
    · simp only [toParse, Parse.header, hk]
    · rintro ⟨k, field, hk', -⟩
      exact absurd (hk.symm.trans hk') (by simp)
  | some k =>
    obtain ⟨hle, hline, hstop, hhead⟩ := memory_of_findCRLF hb outside hk
    obtain ⟨b', hretrieve, hb', hblock, hdrop, hwrite⟩ := exists_retrieve_line hb hle
    rw [hk] at hfind
    obtain ⟨l, hl, hin⟩ := hfind
    have hheader {r : HttpAnalyse × Bool} {l' : List ℕ}
        (h : p.headerLine (p.buffer.readerIndex_ + k) (p.buffer.memory outside) = some (r, l')) :
        p.header (p.buffer.memory outside) = some (⟨r.1, b', p.ok, r.2⟩, l ++ l') :=
      bind_eq hl (bind_eq_of_nil h (bind_eq_of_nil (ofOption_eq hretrieve) rfl))
    have hline' : cells (p.buffer.memory outside) p.buffer.readerIndex_
        (p.buffer.readerIndex_ + k - p.buffer.readerIndex_) = p.buffer.readable.take k := by
      rw [Nat.add_sub_cancel_left, hline]
    have hpr := Nat.le_add_right p.buffer.readerIndex_ k
    rcases hcolon : splitAtByte 58 (p.buffer.readable.take k) with ⟨field, _ | bytes⟩
    · obtain ⟨l', hl', hin'⟩ := headerLine_last hpr (hline'.symm ▸ hcolon)
      refine ⟨_, _, hheader hl', ?_, ⟨hb', hblock, hwrite⟩, ?_⟩
      · simp only [toParse, Parse.header, hk, hcolon, hdrop, hhead]
        split_ifs <;> rfl
      · have hlen : p.buffer.readable.length = p.buffer.writeIndex_ - p.buffer.readerIndex_ := by
          rw [← hb.cells_memory outside, length_cells]
        rcases hle.eq_or_lt with heq | hlt
        · refine iff_of_false (fun hall => ?_) (not_not_intro ⟨k, field, hk, hcolon, ?_⟩)
          · have hlast := hall (p.buffer.readerIndex_ + k + 2) (by simp)
            omega
          · rw [List.drop_eq_nil_iff]
            omega
        · refine iff_of_true (fun i hi => ?_) (not_isLastLine hk hcolon (.inr ?_))
          · rcases List.mem_append.mp hi with hi | hi
            · exact hin i hi
            · rcases List.mem_append.mp hi with hi | hi
              · have hi' := hin' i hi
                omega
              · obtain rfl := List.mem_singleton.mp hi
                omega
          · rw [Ne, List.drop_eq_nil_iff]
            omega
    · have hblock' := hb.write_le (by omega)
      have hcap : p.buffer.readerIndex_ + k < p.buffer.buffer_.capacity :=
        lt_of_lt_of_le (by omega) (hblock'.trans p.buffer.buffer_.size_le)
      obtain ⟨l', hl', hin'⟩ := headerLine_within hpr (hline'.symm ▸ hcolon) hcap hstop
      refine ⟨_, _, hheader hl', ?_, ⟨hb', hblock, hwrite⟩,
        iff_of_true (fun i hi => ?_) (not_isLastLine hk hcolon (.inl (by simp)))⟩
      · simp only [toParse, Parse.header, hk, hcolon, hdrop]
      · rcases List.mem_append.mp hi with hi | hi
        · exact hin i hi
        · have hi' := hin' i hi
          omega

end Iteration

end Scan

/-- The loop is at a header line without a colon, which is all there is. -/
def Parse.AtLastLine (p : Parse) : Prop :=
  p.analyse.m_state_ = .CHECK_STATE_HEADER ∧ Scan.IsLastLine p.buffer

namespace Scan

variable {p : Scan}

/-- One iteration: it is that of the byte queue, and reads readable bytes unless the loop is at a
last line with nothing behind it. -/
theorem exists_iterate (hb : p.buffer.Bounded) (outside : ℕ → UInt8) :
    ∃ p' log, p.iterate (p.buffer.memory outside) = some (p', log) ∧
      p'.toParse = p.toParse.iterate (p.buffer.memory outside p.buffer.writeIndex_) ∧
      p.Follows p' ∧
      ((∀ i ∈ log, p.buffer.readerIndex_ ≤ i ∧ i < p.buffer.writeIndex_) ↔
        ¬ p.toParse.AtLastLine) := by
  have hlast : p.toParse.AtLastLine ↔
      p.analyse.m_state_ = .CHECK_STATE_HEADER ∧ IsLastLine p.buffer.readable := Iff.rfl
  have hparse : p.toParse.analyse.m_state_ = p.analyse.m_state_ := rfl
  cases hstate : p.analyse.m_state_ with
  | CHECK_STATE_REQUESTLINE =>
    obtain ⟨p', ⟨log, hlog, hin⟩, heq, hfollows⟩ := requestLine_within hb outside
    refine ⟨p', log, ?_, ?_, hfollows, iff_of_true hin (by simp [hlast, hstate])⟩
    · simp only [iterate, hstate, hlog]
    · simp only [Parse.iterate, hparse, hstate, heq]
  | CHECK_STATE_HEADER =>
    obtain ⟨p', log, hlog, heq, hfollows, hin⟩ := exists_header hb outside
    refine ⟨p', log, ?_, ?_, hfollows, ?_⟩
    · simp only [iterate, hstate, hlog]
    · simp only [Parse.iterate, hparse, hstate, heq]
    · rw [hin, hlast, and_iff_right hstate]
  | CHECK_STATE_CONTENT =>
    refine ⟨{ p with
      analyse := { p.analyse with m_state_ := .CHECK_STATE_OVER }
      hasmore := false }, [], ?_, ?_, follows_of_eq hb rfl,
      iff_of_true (by simp) (by simp [hlast, hstate])⟩
    · simp only [iterate, hstate]
      rfl
    · simp only [Parse.iterate, hparse, hstate]
      rfl
  | CHECK_STATE_OVER =>
    refine ⟨p, [], ?_, ?_, follows_of_eq hb rfl,
      iff_of_true (by simp) (by simp [hlast, hstate])⟩
    · simp only [iterate, hstate]
      rfl
    · simp only [Parse.iterate, hparse, hstate]

/-! ### The loop -/

/-- A read, with the range of the readable bytes at that time. -/
structure Access where
  address : ℕ
  peek : ℕ
  beginWrite : ℕ
  deriving DecidableEq

/-- The byte that is read is readable. -/
def Access.Readable (a : Access) : Prop := a.peek ≤ a.address ∧ a.address < a.beginWrite

instance (a : Access) : Decidable a.Readable := inferInstanceAs (Decidable (_ ∧ _))

/-- The variables at the end of the loop, and the reads of its iterations. -/
def loop (m : ℕ → UInt8) : ℕ → Scan → Option Scan × List Access
  | 0, _ => (none, [])
  | fuel + 1, p =>
    if p.hasmore then
      match p.iterate m with
      | some (p', log) =>
        ((loop m fuel p').1,
          log.map (⟨·, p.buffer.readerIndex_, p.buffer.writeIndex_⟩) ++ (loop m fuel p').2)
      | none => (none, [])
    else (some p, [])

private theorem toParse_hasmore (p : Scan) : p.toParse.hasmore = p.hasmore := rfl

/-- The unfolding of the loop, with what an iteration does. -/
theorem exists_loop_succ (hb : p.buffer.Bounded) (outside : ℕ → UInt8) (hmore : p.hasmore = true) :
    ∃ p' log, p'.toParse = p.toParse.iterate (p.buffer.memory outside p.buffer.writeIndex_) ∧
      p.Follows p' ∧
      ((∀ a ∈ log, a.Readable) ↔ ¬ p.toParse.AtLastLine) ∧
      ∀ fuel, loop (p.buffer.memory outside) (fuel + 1) p =
        ((loop (p'.buffer.memory outside) fuel p').1,
          log ++ (loop (p'.buffer.memory outside) fuel p').2) := by
  obtain ⟨p', log, hlog, heq, hfollows, hin⟩ := exists_iterate hb outside
  refine ⟨p', log.map (⟨·, p.buffer.readerIndex_, p.buffer.writeIndex_⟩), heq, hfollows, ?_,
    fun fuel => ?_⟩
  · rw [List.forall_mem_map, ← hin]
    rfl
  · have hmemory : p'.buffer.memory outside = p.buffer.memory outside := by
      funext i
      rw [Buffer.memory, Buffer.memory, hfollows.block_eq]
    rw [hmemory, loop, if_pos hmore, hlog]

end Scan

/-! ### When the byte behind the readable ones is read -/

/-- An empty buffer holds no byte that could be followed by another one. -/
theorem Parse.iterate_of_nil {p : Parse} (hnil : p.buffer = []) (beyond beyond' : UInt8) :
    p.iterate beyond = p.iterate beyond' ∧ (p.iterate beyond).buffer = [] := by
  unfold Parse.iterate
  cases p.analyse.m_state_ with
  | CHECK_STATE_REQUESTLINE => simp [Parse.requestLine, hnil, findCRLF]
  | CHECK_STATE_HEADER => simp [Parse.header, hnil, findCRLF]
  | CHECK_STATE_CONTENT => exact ⟨rfl, hnil⟩
  | CHECK_STATE_OVER => exact ⟨rfl, hnil⟩

theorem Parse.loop_of_nil {p : Parse} (hnil : p.buffer = []) (beyond beyond' : UInt8) (fuel : ℕ) :
    p.loop beyond fuel = p.loop beyond' fuel := by
  induction fuel generalizing p with
  | zero => rfl
  | succ fuel ih =>
    obtain ⟨heq, hbuffer⟩ := Parse.iterate_of_nil hnil beyond beyond'
    rw [Parse.loop, Parse.loop, ← heq, ih hbuffer]

/-- The pointers find what the byte queue holds: the loop ends where it ends on the readable bytes,
with the byte behind them. -/
theorem Scan.toParse_loop {p : Scan} (hb : p.buffer.Bounded) (outside : ℕ → UInt8) (fuel : ℕ) :
    (Scan.loop (p.buffer.memory outside) fuel p).1.map Scan.toParse =
      p.toParse.loop (p.buffer.memory outside p.buffer.writeIndex_) fuel := by
  induction fuel generalizing p with
  | zero => rfl
  | succ fuel ih =>
    cases hmore : p.hasmore with
    | false =>
      rw [Scan.loop, Parse.loop, p.toParse_hasmore, hmore]
      rfl
    | true =>
      obtain ⟨p', log, heq, hfollows, -, hloop⟩ := Scan.exists_loop_succ hb outside hmore
      rw [hloop, ih hfollows.bounded, Parse.loop, p.toParse_hasmore, hmore, if_pos rfl, ← heq]
      by_cases hnil : p'.buffer.readable = []
      · exact Parse.loop_of_nil hnil _ _ fuel
      · rw [hfollows.write_eq hnil, Buffer.memory, Buffer.memory, hfollows.block_eq]

/-- From where the parser stands, the header lines end with a line without a colon, and there is
nothing behind it. -/
def Parse.ToLastLine (p : Parse) : Prop :=
  match p.analyse.m_state_ with
  | .CHECK_STATE_REQUESTLINE => ∃ k request request', findCRLF p.buffer = some k ∧
      processHeadRequest p.analyse.request_ (p.buffer.take k) = (request, true) ∧
      Headers request (p.buffer.drop (k + 2)) request' []
  | .CHECK_STATE_HEADER => ∃ request', Headers p.analyse.request_ p.buffer request' []
  | .CHECK_STATE_CONTENT | .CHECK_STATE_OVER => False

/-- The last line is the one at which the loop is, or lies ahead of the next iteration. -/
theorem Parse.toLastLine_iff (beyond : UInt8) {p : Parse} (hmore : p.hasmore = true) :
    p.ToLastLine ↔ p.AtLastLine ∨ (p.iterate beyond).hasmore = true ∧
      (p.iterate beyond).ToLastLine := by
  obtain ⟨⟨state, request⟩, buffer, ok, hasmore⟩ := p
  obtain rfl : hasmore = true := hmore
  cases state with
  | CHECK_STATE_CONTENT => simp [Parse.ToLastLine, Parse.AtLastLine, Parse.iterate]
  | CHECK_STATE_OVER => simp [Parse.ToLastLine, Parse.AtLastLine, Parse.iterate]
  | CHECK_STATE_REQUESTLINE =>
    simp only [Parse.iterate, Parse.requestLine]
    cases hk : findCRLF buffer with
    | none => simp [Parse.ToLastLine, Parse.AtLastLine, hk]
    | some k =>
      rcases hhead : processHeadRequest request (buffer.take k) with ⟨request', _ | _⟩
      · simp [Parse.ToLastLine, Parse.AtLastLine, hk, hhead]
      · simp [Parse.ToLastLine, Parse.AtLastLine, hk, hhead]
  | CHECK_STATE_HEADER =>
    simp only [Parse.iterate, Parse.header]
    cases hk : findCRLF buffer with
    | none =>
      have hnot (request' : HttpRequest) : ¬ Headers request buffer request' [] := fun h => by
        obtain ⟨k, hk'⟩ := h.exists_findCRLF
        exact absurd (hk.symm.trans hk') (by simp)
      simp [Parse.ToLastLine, Parse.AtLastLine, Scan.IsLastLine, hk, hnot]
    | some k =>
      rcases hcolon : splitAtByte 58 (buffer.take k) with ⟨field, _ | bytes⟩
      · have hheaders (request' : HttpRequest) :
            Headers request buffer request' [] ↔ request' = request ∧ buffer.drop (k + 2) = [] :=
          (headers_iff_of_last hk hcolon).trans (and_congr_right fun _ => eq_comm)
        simp only [Parse.ToLastLine, hheaders]
        split_ifs <;> simp [Parse.AtLastLine, Scan.IsLastLine, hk, hcolon]
      · have hheaders (request' : HttpRequest) : Headers request buffer request' [] ↔
            Headers (request.addHeader field bytes) (buffer.drop (k + 2)) request' [] :=
          headers_iff_of_line hk hcolon
        simp [Parse.ToLastLine, Parse.AtLastLine, Scan.IsLastLine, hk, hcolon, hheaders]

/-- Without a last line ahead that has nothing behind it, all reads are of readable bytes. -/
theorem Scan.readable_of_not_toLastLine {p : Scan} (hb : p.buffer.Bounded) (outside : ℕ → UInt8)
    (h : p.hasmore = true → ¬ p.toParse.ToLastLine) (fuel : ℕ) :
    ∀ a ∈ (Scan.loop (p.buffer.memory outside) fuel p).2, a.Readable := by
  induction fuel generalizing p with
  | zero => simp [Scan.loop]
  | succ fuel ih =>
    cases hmore : p.hasmore with
    | false => simp [Scan.loop, hmore]
    | true =>
      obtain ⟨p', log, heq, hfollows, hin, hloop⟩ := Scan.exists_loop_succ hb outside hmore
      have hnot := h hmore
      rw [Parse.toLastLine_iff _ (p.toParse_hasmore.trans hmore), ← heq, not_or] at hnot
      rw [hloop]
      intro a ha
      rcases List.mem_append.mp ha with ha | ha
      · exact hin.mpr hnot.1 a ha
      · exact ih hfollows.bounded (fun hmore' hlast => hnot.2 ⟨hmore', hlast⟩) a ha

/-- On the way to a last line that has nothing behind it, each iteration takes a line. There the
byte behind the readable ones is read. -/
theorem Scan.exists_not_readable {p : Scan} (hb : p.buffer.Bounded) (outside : ℕ → UInt8)
    (hmore : p.hasmore = true) (h : p.toParse.ToLastLine) :
    ∃ fuel, ∃ a ∈ (Scan.loop (p.buffer.memory outside) fuel p).2, ¬ a.Readable := by
  induction hn : p.toParse.remaining using Nat.strong_induction_on generalizing p with
  | _ n ih =>
    obtain ⟨p', log, heq, hfollows, hin, hloop⟩ := Scan.exists_loop_succ hb outside hmore
    have hstate : p.toParse.analyse.m_state_ ≠ .CHECK_STATE_OVER := by
      intro hover
      rw [Parse.ToLastLine, hover] at h
      exact h
    have hlt := (Parse.remaining_iterate_lt (p.buffer.memory outside p.buffer.writeIndex_)
      (p.toParse_hasmore.trans hmore) hstate).1
    rw [Parse.toLastLine_iff _ (p.toParse_hasmore.trans hmore), ← heq] at h
    rcases h with hlast | ⟨hmore', hlast⟩
    · obtain ⟨a, ha, hnot⟩ : ∃ a ∈ log, ¬ a.Readable := by
        by_contra hall
        push Not at hall
        exact hin.mp hall hlast
      exact ⟨1, a, by rw [hloop]; exact List.mem_append_left _ ha, hnot⟩
    · rw [← heq, hn] at hlt
      obtain ⟨fuel, a, ha, hnot⟩ := ih _ hlt hfollows.bounded hmore' hlast rfl
      exact ⟨fuel + 1, a, by rw [hloop]; exact List.mem_append_right _ ha, hnot⟩

end HttpAnalyse

/-! ### The form of the received bytes -/

/-- Lines with a colon and a line without one, each with its end. -/
def IsHeaderBlock (bytes : List UInt8) : Prop :=
  ∃ (headers : List (List UInt8)) (last : List UInt8), (∀ h ∈ headers, IsLine h ∧ 58 ∈ h) ∧
    IsLine last ∧ 58 ∉ last ∧ bytes = headers.flatMap endLine ++ endLine last

/-- The bytes that a parser in the given state has received end with the first header line without a
colon. -/
def EndsAtLastLine : Check_State → List UInt8 → Prop
  | .CHECK_STATE_REQUESTLINE, bytes => ∃ line block, IsLine line ∧ IsRequestLine line ∧
      IsHeaderBlock block ∧ bytes = endLine line ++ block
  | .CHECK_STATE_HEADER, bytes => IsHeaderBlock bytes
  | _, _ => False

namespace HttpAnalyse

theorem exists_headers_iff (request : HttpRequest) {bytes : List UInt8} :
    (∃ request', Headers request bytes request' []) ↔ IsHeaderBlock bytes := by
  constructor
  · rintro ⟨request', h⟩
    obtain ⟨headers, last, hheaders, hline, hcolon, hbytes⟩ := h.exists_lines
    exact ⟨headers, last, hheaders, hline, hcolon, by rw [hbytes, List.append_nil]⟩
  · rintro ⟨headers, last, hheaders, hline, hcolon, rfl⟩
    induction headers generalizing request with
    | nil =>
      have hend := findCRLF_endLine_append hline []
      have htake := take_endLine_append last []
      have hdrop := drop_endLine_append last []
      rw [List.append_nil] at hend htake hdrop
      rcases hsplit : splitAtByte 58 last with ⟨field, _ | bytes⟩
      · rw [← htake] at hsplit
        exact ⟨request, (headers_iff_of_last hend hsplit).mpr ⟨rfl, hdrop.symm⟩⟩
      · obtain ⟨rfl, -⟩ := splitAtByte_eq_some hsplit
        simp at hcolon
    | cons h headers ih =>
      obtain ⟨hh, hmem⟩ := hheaders h List.mem_cons_self
      rw [List.flatMap_cons, List.append_assoc]
      have hend := findCRLF_endLine_append hh (headers.flatMap endLine ++ endLine last)
      have htake := take_endLine_append h (headers.flatMap endLine ++ endLine last)
      rcases hsplit : splitAtByte 58 h with ⟨field, _ | bytes⟩
      · exact absurd hmem (splitAtByte_eq_none hsplit)
      · rw [← htake] at hsplit
        simp only [headers_iff_of_line hend hsplit, drop_endLine_append]
        exact ih _ fun l hl => hheaders l (List.mem_cons_of_mem _ hl)

theorem Parse.toLastLine_iff_endsAtLastLine (p : Parse) :
    p.ToLastLine ↔ EndsAtLastLine p.analyse.m_state_ p.buffer := by
  unfold Parse.ToLastLine EndsAtLastLine
  cases p.analyse.m_state_ with
  | CHECK_STATE_HEADER => exact exists_headers_iff _
  | CHECK_STATE_CONTENT => exact Iff.rfl
  | CHECK_STATE_OVER => exact Iff.rfl
  | CHECK_STATE_REQUESTLINE =>
    constructor
    · rintro ⟨k, request, request', hk, hhead, hheaders⟩
      exact ⟨p.buffer.take k, p.buffer.drop (k + 2), isLine_take_of_findCRLF hk,
        isRequestLine_of_processHeadRequest hhead, (exists_headers_iff _).mp ⟨_, hheaders⟩,
        eq_endLine_append_of_findCRLF hk⟩
    · rintro ⟨line, block, hline, hrequest, hblock, hbuffer⟩
      obtain ⟨request, hhead⟩ := exists_processHeadRequest_eq p.analyse.request_ hrequest
      obtain ⟨request', hheaders⟩ := (exists_headers_iff request).mpr hblock
      rw [hbuffer]
      refine ⟨line.length, request, request', findCRLF_endLine_append hline _, ?_, ?_⟩
      · rwa [take_endLine_append]
      · rwa [drop_endLine_append]

/-- **The bytes that are read.** For every buffer that satisfies the representation invariant and
every parser: `parseRequest` reads readable bytes only, however long its loop runs, if and only if
the received bytes do not end with the first header line without a colon. -/
theorem reads_readable_iff {b : Buffer} (hb : b.Inv) (hsize : b.buffer_.size < 2 ^ 64)
    (a : HttpAnalyse) (outside : ℕ → UInt8) :
    (∀ fuel, ∀ x ∈ (Scan.loop (b.memory outside) fuel ⟨a, b, false, true⟩).2, x.Readable) ↔
      ¬ EndsAtLastLine a.m_state_ b.readable := by
  let p : Scan := ⟨a, b, false, true⟩
  have hbounded : p.buffer.Bounded := hb.bounded hsize
  have hlast : p.toParse.ToLastLine ↔ EndsAtLastLine a.m_state_ b.readable :=
    p.toParse.toLastLine_iff_endsAtLastLine
  rw [← hlast]
  constructor
  · intro hall h
    obtain ⟨fuel, x, hx, hnot⟩ := Scan.exists_not_readable hbounded outside rfl h
    exact hnot (hall fuel x hx)
  · exact fun h => Scan.readable_of_not_toLastLine hbounded outside fun _ => h

/-- A part of a request line, at the end of a vector with a line end behind it. -/
theorem reads_readable_iff_unfinished : ∃ b : Buffer, b.readable = bytesOf "GET / HT" ∧
    ∀ fuel, ∀ x ∈ (Scan.loop (b.memory fun _ => 10) fuel ⟨new, b, false, true⟩).2,
      x.Readable := by
  refine ⟨⟨⟨bytesOf "GET / HT", 8, by decide⟩, 0, 8⟩, rfl,
    (reads_readable_iff ⟨by decide, by decide⟩ (by decide) new _).mpr ?_⟩
  rintro ⟨line, block, hline, -, -, hbytes⟩
  have hend := findCRLF_endLine_append hline block
  rw [← hbytes] at hend
  cases hend

/-- A complete request, received with nothing behind it: the byte behind the empty line is read. -/
theorem reads_behind : ∃ b, (Buffer.new 0).append (bytesOf "GET / HTTP/1.1\r\n\r\n") (fun _ => 0) =
    some b ∧ b.Inv ∧ ∃ x ∈ (Scan.loop (b.memory fun _ => 0) 2 ⟨new, b, false, true⟩).2,
      ¬ x.Readable := by
  refine ⟨_, rfl, ⟨by decide, by decide⟩, ⟨26, 24, 26⟩, by decide +kernel, by decide⟩

end HttpAnalyse

end TinyMuduo
