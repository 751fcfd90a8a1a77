import TinyMuduo.Buffer.Deque
import TinyMuduo.Http.HttpServer

/-!
# What a client receives

`HttpServer::OnRequest` appends the response to a new `Buffer` and sends `Buffer::to_string`, which
is not the readable bytes but all elements of the vector, 1032 of them, the cheap prepend area
included. That area is zero in a new buffer, and a response starts with `"HTTP/1.1 "`: what is sent
is never the response. For a request that the parser rejects, `HttpServer::onMessage` sends the line
`"parseRequest failed"` before the response.

## Main definitions

* `HttpServer.response`: the response to a request.
* `HttpServer.Begun`: a buffer to which the start of a response has been appended.

## Main results

* `HttpServer.sentBytes_ne_response`: neither of the two calls sends an HTTP response.
-/

namespace TinyMuduo

namespace HttpServer

/-! ### The buffer of the response -/

/-- A new buffer to which the start of a response has been appended: its first byte is the zero of
the cheap prepend area, its first readable byte an `H`. -/
structure Begun (b : Buffer) : Prop where
  reader_eq : b.readerIndex_ = 8
  lt_write : 8 < b.writeIndex_
  size_eq : b.buffer_.size = 1032
  zero : b.buffer_.block[0]? = some 0
  first : b.buffer_.block[8]? = some 72

section Append

variable {b b' : Buffer} {data : List UInt8} {fresh : ℕ → UInt8}

/-- A write leaves the bytes before it. -/
theorem getElem?_write_of_lt {v : CharVector} {i k : ℕ} (hk : k < i) :
    (v.write i data).block[k]? = v.block[k]? := by
  simp only [CharVector.write, CharVector.overwrite, List.append_assoc]
  rw [List.getElem?_take]
  by_cases hblock : k < v.block.length
  · rw [if_pos hblock, List.getElem?_append_left (by rw [List.length_take]; omega),
      List.getElem?_take, if_pos hk]
  · rw [if_neg hblock, List.getElem?_eq_none (by omega)]

/-- `reserve` keeps the elements. -/
theorem getElem?_reserve {v w : CharVector} {n k : ℕ} (h : v.reserve n fresh = some w)
    (hk : k < v.size) : w.block[k]? = v.block[k]? := by
  have hsize := v.size_le
  unfold CharVector.reserve at h
  split_ifs at h
  · obtain rfl := Option.some.inj h
    rfl
  · obtain rfl := Option.some.inj h
    rw [List.getElem?_append_left (by rw [List.length_take]; omega), List.getElem?_take,
      if_pos hk]

/-- A buffer that has not been read from has nothing to compact. -/
theorem ensureWritableBytes_cases {len : ℕ} (hreader : b.readerIndex_ = 8)
    (h : b.ensureWritableBytes len fresh = some b') :
    ∃ v : CharVector, b' = { b with buffer_ := v } ∧ v.size = b.buffer_.size ∧
      ∀ k, k < b.buffer_.size → v.block[k]? = b.buffer_.block[k]? := by
  unfold Buffer.ensureWritableBytes at h
  split_ifs at h
  · unfold Buffer.makeSpace at h
    split_ifs at h with hreserve hcompact
    · obtain ⟨v, hv, rfl⟩ := Option.map_eq_some_iff.mp h
      exact ⟨v, rfl, CharVector.size_reserve hv, fun k hk => getElem?_reserve hv hk⟩
    · rw [hreader] at hcompact
      exact absurd hcompact (by decide)
  · obtain rfl := Option.some.inj h
    exact ⟨b.buffer_, rfl, rfl, fun _ _ => rfl⟩

/-- An append to a response that was begun. -/
theorem Begun.append (hb : Begun b) (hlen : b.writeIndex_ + data.length < 2 ^ 64)
    (h : b.append data fresh = some b') :
    Begun b' ∧ b'.writeIndex_ = b.writeIndex_ + data.length := by
  obtain ⟨c, hc, rfl⟩ := Option.map_eq_some_iff.mp h
  obtain ⟨v, rfl, hsize, hkeep⟩ := ensureWritableBytes_cases hb.reader_eq hc
  have hwrite := hb.lt_write
  have hend : SizeT.add b.writeIndex_ data.length = b.writeIndex_ + data.length :=
    SizeT.add_of_lt hlen
  refine ⟨⟨hb.reader_eq, ?_, hsize.trans hb.size_eq, ?_, ?_⟩, hend⟩
  · change 8 < SizeT.add b.writeIndex_ data.length
    rw [hend]
    omega
  · exact (getElem?_write_of_lt (show 0 < b.writeIndex_ by omega)).trans
      ((hkeep 0 (by rw [hb.size_eq]; decide)).trans hb.zero)
  · exact (getElem?_write_of_lt hwrite).trans
      ((hkeep 8 (by rw [hb.size_eq]; decide)).trans hb.first)

/-- The start of a response goes into the vector of a new buffer. -/
theorem begun_append_new {initialSize : ℕ} {bytes : List UInt8} (hlen : bytes.length < 1024)
    (h : (Buffer.new initialSize).append (72 :: bytes) fresh = some b) :
    Begun b ∧ b.writeIndex_ = 8 + (72 :: bytes).length := by
  have hwritable : (Buffer.new initialSize).writableBytes = 1024 :=
    SizeT.sub_of_le (a := 1032) (b := 8) (by decide) (by decide)
  have hspace : ¬ (Buffer.new initialSize).writableBytes < (72 :: bytes).length := by
    rw [hwritable, List.length_cons]
    omega
  have hend : SizeT.add 8 (72 :: bytes).length = 8 + (72 :: bytes).length :=
    SizeT.add_of_lt (by rw [List.length_cons]; omega)
  rw [Buffer.append, Buffer.ensureWritableBytes, if_neg hspace, Option.map_some] at h
  obtain rfl := Option.some.inj h
  have hfirst : ((CharVector.zeros 1032).write 8 (72 :: bytes)).block[8]? = some 72 := by
    rw [CharVector.getElem?_write (by
      rw [List.length_cons]
      simp only [CharVector.capacity, CharVector.zeros, List.length_replicate]
      omega), if_pos (by rw [List.length_cons]; omega)]
    rfl
  refine ⟨⟨rfl, ?_, rfl, getElem?_write_of_lt (show 0 < 8 by decide), hfirst⟩, hend⟩
  change 8 < SizeT.add 8 (72 :: bytes).length
  rw [hend, List.length_cons]
  omega

/-- Appends to a response that was begun. -/
theorem Begun.foldlM {pieces : List (List UInt8)} (hb : Begun b)
    (hlen : b.writeIndex_ + pieces.flatten.length < 2 ^ 64)
    (h : pieces.foldlM (fun buffer piece => buffer.append piece fresh) b = some b') :
    Begun b' := by
  induction pieces generalizing b with
  | nil =>
    obtain rfl := Option.some.inj h
    exact hb
  | cons piece pieces ih =>
    rw [List.foldlM_cons] at h
    obtain ⟨c, hc, hrest⟩ := Option.bind_eq_some_iff.mp h
    rw [List.flatten_cons, List.length_append] at hlen
    obtain ⟨hcb, hwrite⟩ := hb.append (by omega) hc
    exact ih hcb (by omega) hrest

/-- The elements of the vector start with the zero of the cheap prepend area. -/
theorem Begun.to_string_head (hb : Begun b) : b.to_string.head? = some 0 := by
  rw [List.head?_eq_getElem?, Buffer.to_string, CharVector.toList, List.getElem?_take,
    if_pos (by rw [hb.size_eq]; decide), hb.zero]

theorem Begun.readable_head (hb : Begun b) : b.readable.head? = some 72 := by
  have hlt := hb.lt_write
  rw [List.head?_eq_getElem?, Buffer.readable, CharVector.getElem?_slice, hb.reader_eq,
    if_pos (by omega), hb.first]

end Append

/-! ### What is sent -/

section Sent

variable (httpCallback_ : HttpCallback) (fresh : ℕ → UInt8)

/-- The response to a request. -/
def response (req : HttpRequest) : HttpRespne :=
  httpCallback_ req (.new (closes req))

/-- The first piece of a response is the start of its status line. -/
theorem pieces_eq_cons (r : HttpRespne) :
    ∃ bytes rest, r.pieces = (72 :: bytes) :: rest ∧ bytes.length < 1024 := by
  have hstart : bytesOf "HTTP/1.1 " = 72 :: bytesOf "TTP/1.1 " := by decide
  have hpiece : snprintf (bytesOf "HTTP/1.1 " ++ decimal r.statusCode_.toNat ++ bytesOf " ") =
      72 :: (bytesOf "TTP/1.1 " ++ decimal r.statusCode_.toNat ++ bytesOf " ").take 30 := by
    rw [hstart]
    rfl
  refine ⟨_, _, by rw [HttpRespne.pieces, hpiece]; rfl, ?_⟩
  rw [List.length_take]
  omega

theorem sentBytes_onRequest (req : HttpRequest) :
    sentBytes (OnRequest httpCallback_ fresh req).1 =
      (((response httpCallback_ req).appendToBuffer (.new Buffer.kInitialSize) fresh).map
        Buffer.to_string).getD [] := by
  simp only [OnRequest, response]
  cases (httpCallback_ req (.new (closes req))).appendToBuffer (.new Buffer.kInitialSize) fresh with
  | none => rfl
  | some buf =>
    simp only [Option.map_some, Option.getD_some, sentBytes_append]
    split_ifs with hlength hclose <;> simp_all [sentBytes]

end Sent

/-- The buffer of a response that fits into memory. -/
theorem begun_appendToBuffer {r : HttpRespne} {fresh : ℕ → UInt8} {buf : Buffer}
    (hlen : r.pieces.flatten.length < 2 ^ 63)
    (h : r.appendToBuffer (.new Buffer.kInitialSize) fresh = some buf) : Begun buf := by
  obtain ⟨bytes, rest, hpieces, hbytes⟩ := pieces_eq_cons r
  rw [hpieces, List.flatten_cons, List.length_append] at hlen
  rw [HttpRespne.appendToBuffer, hpieces, List.foldlM_cons] at h
  obtain ⟨b, hb, hrest⟩ := Option.bind_eq_some_iff.mp h
  obtain ⟨hbegun, hwrite⟩ := begun_append_new hbytes hb
  exact hbegun.foldlM (by omega) hrest

/-- `to_string` has as many bytes as the vector has elements. -/
theorem length_to_string_appendToBuffer {r : HttpRespne} {fresh : ℕ → UInt8} {buf : Buffer}
    (h : r.appendToBuffer (.new Buffer.kInitialSize) fresh = some buf) :
    buf.to_string.length = 1032 := by
  have hfold {pieces : List (List UInt8)} {b b' : Buffer}
      (h : pieces.foldlM (fun buffer piece => buffer.append piece fresh) b = some b') :
      b'.buffer_.size = b.buffer_.size := by
    induction pieces generalizing b with
    | nil =>
      obtain rfl := Option.some.inj h
      rfl
    | cons piece pieces ih =>
      rw [List.foldlM_cons] at h
      obtain ⟨c, hc, hrest⟩ := Option.bind_eq_some_iff.mp h
      exact (ih hrest).trans (Buffer.size_append hc)
  rw [Buffer.to_string, CharVector.length_toList]
  exact hfold h

/-- What is sent is never the serialised response: it is as long as the vector, and it starts with
the cheap prepend area. -/
theorem sentBytes_ne_flatten (httpCallback_ : HttpCallback) (fresh : ℕ → UInt8)
    (req : HttpRequest) :
    sentBytes (OnRequest httpCallback_ fresh req).1 ≠
      (response httpCallback_ req).pieces.flatten := by
  obtain ⟨bytes, rest, hpieces, -⟩ := pieces_eq_cons (response httpCallback_ req)
  intro heq
  have hhead : (sentBytes (OnRequest httpCallback_ fresh req).1).head? = some 72 := by
    rw [heq, hpieces]
    rfl
  have hlen := congrArg List.length heq
  rw [sentBytes_onRequest] at hhead hlen
  cases hbuf : (response httpCallback_ req).appendToBuffer (.new Buffer.kInitialSize) fresh with
  | none =>
    rw [hbuf] at hhead
    exact absurd hhead (by simp)
  | some buf =>
    rw [hbuf, Option.map_some, Option.getD_some] at hhead hlen
    rw [length_to_string_appendToBuffer hbuf] at hlen
    rw [(begun_appendToBuffer (by omega) hbuf).to_string_head] at hhead
    exact absurd hhead (by simp)

/-- What is sent is not what the buffer holds either. -/
theorem sentBytes_ne_readable {httpCallback_ : HttpCallback} {fresh : ℕ → UInt8}
    {req : HttpRequest} {buf : Buffer}
    (hlen : (response httpCallback_ req).pieces.flatten.length < 2 ^ 63)
    (h : (response httpCallback_ req).appendToBuffer (.new Buffer.kInitialSize) fresh = some buf) :
    sentBytes (OnRequest httpCallback_ fresh req).1 ≠ buf.readable := by
  intro heq
  have hbegun := begun_appendToBuffer hlen h
  have hhead := congrArg List.head? heq
  rw [sentBytes_onRequest, h, Option.map_some, Option.getD_some, hbegun.to_string_head,
    hbegun.readable_head] at hhead
  exact absurd hhead (by simp)

/-- What is sent for a request that the parser rejects. -/
theorem prefix_sentBytes_onMessage {httpCallback_ : HttpCallback} {fresh : ℕ → UInt8}
    {beyond : UInt8} {buf rest : List UInt8} {a : HttpAnalyse}
    (h : HttpAnalyse.new.parseRequest beyond buf = some (a, rest, false)) :
    bytesOf "parseRequest failed\n" <+:
      sentBytes (onMessage httpCallback_ fresh beyond buf).1 := by
  have hbad : bytesOf "parseRequest failed\n" <+: sentBytes badRequest :=
    ⟨bytesOf "HTTP/1.1 400 Bad Request\r\n\r\n", by decide⟩
  cases hover : a.isover with
  | true =>
    simp only [onMessage, h, hover, if_true, Bool.false_eq_true, if_false, sentBytes_append]
    exact hbad.trans (List.prefix_append _ _)
  | false =>
    simp only [onMessage, h, hover, Bool.false_eq_true, if_false]
    exact hbad

/-- No answer is an HTTP response. For every request and every response to it, what `OnRequest`
passes to `send` is neither the serialised response nor, when its length is one of an object in
memory, the readable bytes of the buffer that it was appended to; for every input that the parser
rejects, what `onMessage` sends does not start with a status line. -/
theorem sentBytes_ne_response (httpCallback_ : HttpCallback) (fresh : ℕ → UInt8) (beyond : UInt8) :
    (∀ req, sentBytes (OnRequest httpCallback_ fresh req).1 ≠
          (response httpCallback_ req).pieces.flatten ∧
        ((response httpCallback_ req).pieces.flatten.length < 2 ^ 63 → ∀ buf,
          (response httpCallback_ req).appendToBuffer (.new Buffer.kInitialSize) fresh = some buf →
            sentBytes (OnRequest httpCallback_ fresh req).1 ≠ buf.readable)) ∧
      ∀ buf a rest, HttpAnalyse.new.parseRequest beyond buf = some (a, rest, false) →
        ¬ bytesOf "HTTP/" <+: sentBytes (onMessage httpCallback_ fresh beyond buf).1 := by
  refine ⟨fun req => ⟨sentBytes_ne_flatten httpCallback_ fresh req, fun hlen buf hbuf =>
    sentBytes_ne_readable hlen hbuf⟩, fun buf a rest h hstatus => ?_⟩
  obtain ⟨bytes, hbytes⟩ := hstatus
  obtain ⟨bytes', hbytes'⟩ : bytesOf "parseRequest failed\n" <+:
      sentBytes (onMessage httpCallback_ fresh beyond buf).1 := prefix_sentBytes_onMessage h
  have hhead := congrArg List.head? (hbytes.trans hbytes'.symm)
  rw [show bytesOf "HTTP/" = 72 :: bytesOf "TTP/" by decide,
    show bytesOf "parseRequest failed\n" = 112 :: bytesOf "arseRequest failed\n" by decide] at hhead
  exact absurd hhead (by simp)

/-- The request that the parser hands over for `"GET / HTTP/1.1"` without header lines. -/
def rootRequest : HttpRequest :=
  ((HttpRequest.new.setMethod (bytesOf "GET")).1.setPath (bytesOf "/")).set_version .HTTP11

theorem parseRequest_root : HttpAnalyse.new.parseRequest 0 (bytesOf "GET / HTTP/1.1\r\n\r\n") =
    some (⟨.CHECK_STATE_OVER, rootRequest⟩, [], true) := by
  decide +kernel

/-- The answer to a request for `/` without headers, and that to a line without a method. -/
theorem sentBytes_ne_response_default :
    sentBytes (onMessage defaultHttpCallback (fun _ => 0) 0
        (bytesOf "GET / HTTP/1.1\r\n\r\n")).1 ≠
        (response defaultHttpCallback rootRequest).pieces.flatten ∧
      ¬ bytesOf "HTTP/" <+:
        sentBytes (onMessage defaultHttpCallback (fun _ => 0) 0 (bytesOf "X\r\n")).1 := by
  refine ⟨?_, (sentBytes_ne_response defaultHttpCallback (fun _ => 0) 0).2 _ _ _ rfl⟩
  rw [onMessage, parseRequest_root]
  exact ((sentBytes_ne_response defaultHttpCallback (fun _ => 0) 0).1 rootRequest).1

/-- The answer of the default callback to a request for `/` is the response between the cheap
prepend area and the rest of the vector; the answer to a line without a method starts with a message
for the log. -/
theorem sentBytes_default :
    (∃ buf, (response defaultHttpCallback rootRequest).appendToBuffer (.new Buffer.kInitialSize)
        (fun _ => 0) = some buf ∧
      buf.readable = (response defaultHttpCallback rootRequest).pieces.flatten ∧
      sentBytes (onMessage defaultHttpCallback (fun _ => 0) 0
          (bytesOf "GET / HTTP/1.1\r\n\r\n")).1 =
        List.replicate 8 0 ++ buf.readable ++ List.replicate 979 0 ∧
      sentBytes (onMessage defaultHttpCallback (fun _ => 0) 0
          (bytesOf "GET / HTTP/1.1\r\n\r\n")).1 ≠ buf.readable) ∧
      sentBytes (onMessage defaultHttpCallback (fun _ => 0) 0 (bytesOf "X\r\n")).1 =
        bytesOf "parseRequest failed\n" ++ bytesOf "HTTP/1.1 400 Bad Request\r\n\r\n" := by
  have hbuf : ((response defaultHttpCallback rootRequest).appendToBuffer
      (.new Buffer.kInitialSize) fun _ => 0).any (fun buf =>
        (buf.readable = (response defaultHttpCallback rootRequest).pieces.flatten ∧
          sentBytes (OnRequest defaultHttpCallback (fun _ => 0) rootRequest).1 =
            List.replicate 8 0 ++ buf.readable ++ List.replicate 979 0 ∧
          sentBytes (OnRequest defaultHttpCallback (fun _ => 0) rootRequest).1 ≠
            buf.readable : Bool)) = true := by
    decide +kernel
  obtain ⟨buf, happend, hsent⟩ := (Option.any_eq_true _ _).mp hbuf
  refine ⟨⟨buf, happend, ?_⟩, by decide +kernel⟩
  rw [onMessage, parseRequest_root]
  exact of_decide_eq_true hsent

end HttpServer

end TinyMuduo
