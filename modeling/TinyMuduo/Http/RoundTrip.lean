import TinyMuduo.Http.RequestHead

/-!
# Requests survive the wire

A request is written as a request line, its header lines and an empty line. The parser reads back
the method, the version, the two parts of the target and the last value of each header, and takes
no byte behind the empty line (`HttpAnalyse.parseRequest_encode`).

## Main definitions

* `HeaderLine`, `RequestText`: a request as it is written.
* `RequestText.encode`: its bytes.
* `requestLineOf`, `HttpRequest.line`: the request line with given parts, and that of a request.

## Main results

* `HttpAnalyse.isRequestLine_iff`: the lines that are accepted, and what they leave in the request.
* `HttpAnalyse.starts_encode`: the bytes of a request are a complete request.
* `HttpAnalyse.parseRequest_encode`: the parser reads back what was written.
-/

namespace TinyMuduo

/-- The name and the value of a header, as they are written around the colon. -/
structure HeaderLine where
  name : List UInt8
  value : List UInt8
  colon_notMem_name : 58 ∉ name
  isLine_name : IsLine name
  isLine_value : IsLine value

/-- A request as it is written. -/
structure RequestText where
  method : METHOD
  target : List UInt8
  version : VERSION
  headers : List HeaderLine
  method_ne : method ≠ .Invalid
  version_ne : version ≠ .UNKNOW
  space_notMem_target : 32 ∉ target
  isLine_target : IsLine target

/-- The digit of a version. -/
def VERSION.digit : VERSION → UInt8
  | .HTTP11 => 49
  | _ => 48

/-- The request line of a method, a target and a version. -/
def requestLineOf (m : METHOD) (target : List UInt8) (version : VERSION) : List UInt8 :=
  HttpRequest.methodstring m ++ 32 :: (target ++ 32 :: (bytesOf "HTTP/1." ++ [version.digit]))

/-- The request line that a request was made of: `methodstring`, `path` and `query`, and the digit
of `Getversion`. -/
def HttpRequest.line (r : HttpRequest) : List UInt8 :=
  requestLineOf r.m_method_ (r.path_ ++ r.qurey_) r.m_version_

def HeaderLine.text (h : HeaderLine) : List UInt8 := h.name ++ 58 :: h.value

namespace RequestText

variable (q : RequestText)

/-- The request line. -/
def requestLine : List UInt8 :=
  HttpRequest.methodstring q.method ++
    32 :: (q.target ++ 32 :: (bytesOf "HTTP/1." ++ [q.version.digit]))

/-- The bytes of a request. -/
def encode : List UInt8 :=
  endLine q.requestLine ++ (q.headers.flatMap fun h => endLine h.text) ++ endLine []

/-- What the request line sets in a new request. -/
def head : HttpRequest :=
  ⟨q.method, q.version, q.target.takeWhile (· != 63), q.target.dropWhile (· != 63), ∅⟩

end RequestText

theorem HeaderLine.isLine_text (h : HeaderLine) : IsLine h.text :=
  h.isLine_name.append_cons h.isLine_value (by decide) (by decide)

private theorem isLine_methodstring (m : METHOD) : IsLine (HttpRequest.methodstring m) := by
  cases m <;> decide

private theorem space_notMem_methodstring (m : METHOD) : 32 ∉ HttpRequest.methodstring m := by
  cases m <;> decide

theorem RequestText.isLine_requestLine (q : RequestText) : IsLine q.requestLine := by
  have hversion : IsLine (bytesOf "HTTP/1." ++ [q.version.digit]) := by
    cases q.version <;> decide
  have hrest := q.isLine_target.append_cons hversion (c := 32) (by decide) (by decide)
  exact (isLine_methodstring _).append_cons hrest (by decide) (by decide)

namespace HttpAnalyse

/-! ### The request line -/

private theorem processVersion_digit (request : HttpRequest) {version : VERSION}
    (h : version ≠ .UNKNOW) :
    processVersion request (bytesOf "HTTP/1." ++ [version.digit]) =
      (request.set_version version, true) := by
  cases version with
  | UNKNOW => exact absurd rfl h
  | HTTP10 => rfl
  | HTTP11 => rfl

/-- The request line sets the method, the version and the path. The query is set when the target
has one. -/
theorem processHeadRequest_requestLineOf (request : HttpRequest) {m : METHOD}
    {target : List UInt8} {version : VERSION} (hm : m ≠ .Invalid) (htarget : 32 ∉ target)
    (hversion : version ≠ .UNKNOW) :
    processHeadRequest request (requestLineOf m target version) =
      ({ request with
          m_method_ := m
          m_version_ := version
          path_ := target.takeWhile (· != 63)
          qurey_ := if target.dropWhile (· != 63) = [] then request.qurey_
            else target.dropWhile (· != 63) }, true) := by
  have hmethod := splitAtByte_append_cons (space_notMem_methodstring m)
    (target ++ 32 :: (bytesOf "HTTP/1." ++ [version.digit]))
  have htarget := splitAtByte_append_cons htarget (bytesOf "HTTP/1." ++ [version.digit])
  simp only [processHeadRequest, requestLineOf, hmethod, htarget, HttpRequest.setMethod,
    HttpRequest.methodOf_methodstring hm, ne_eq, hm, not_false_eq_true, decide_true, if_true,
    processVersion_digit _ hversion]
  split_ifs <;> rfl

/-- The parts of a request line of the grammar. -/
theorem exists_requestLineOf {line : List UInt8} (h : IsRequestLine line) :
    ∃ (m : METHOD) (target : List UInt8) (version : VERSION), m ≠ .Invalid ∧ 32 ∉ target ∧
      version ≠ .UNKNOW ∧ line = requestLineOf m target version := by
  obtain ⟨method, hmethod, target, digit, htarget, hdigit, rfl⟩ := h
  obtain ⟨m, hm, rfl⟩ : ∃ m, m ≠ METHOD.Invalid ∧ HttpRequest.methodstring m = method := by
    simp only [methodNames, List.map_cons, List.map_nil, List.mem_cons, List.not_mem_nil,
      or_false] at hmethod
    rcases hmethod with rfl | rfl | rfl | rfl | rfl | rfl | rfl
    · exact ⟨.GET, by decide, rfl⟩
    · exact ⟨.POST, by decide, rfl⟩
    · exact ⟨.HEAD, by decide, rfl⟩
    · exact ⟨.PUT, by decide, rfl⟩
    · exact ⟨.DELETE, by decide, rfl⟩
    · exact ⟨.TRACE, by decide, rfl⟩
    · exact ⟨.PATH, by decide, rfl⟩
  rcases hdigit with rfl | rfl
  · exact ⟨m, target, .HTTP10, hm, htarget, by decide, rfl⟩
  · exact ⟨m, target, .HTTP11, hm, htarget, by decide, rfl⟩

/-- Every request accepts the request lines of the grammar. -/
theorem exists_processHeadRequest_eq (request : HttpRequest) {line : List UInt8}
    (h : IsRequestLine line) : ∃ request', processHeadRequest request line = (request', true) := by
  obtain ⟨m, target, version, hm, htarget, hversion, rfl⟩ := exists_requestLineOf h
  exact ⟨_, processHeadRequest_requestLineOf request hm htarget hversion⟩

/-- **The request line.** A new request accepts a line exactly when it is a method, a target without
a space and a version with one space in between, and then the line can be read off the request. -/
theorem isRequestLine_iff (line : List UInt8) :
    ((processHeadRequest .new line).2 = true ↔ IsRequestLine line) ∧
      ((processHeadRequest .new line).2 = true → (processHeadRequest .new line).1.line = line) := by
  have hiff : (processHeadRequest .new line).2 = true ↔ IsRequestLine line := by
    refine ⟨fun h => isRequestLine_of_processHeadRequest (Prod.ext rfl h), fun h => ?_⟩
    obtain ⟨request', hrequest⟩ := exists_processHeadRequest_eq .new h
    rw [hrequest]
  refine ⟨hiff, fun h => ?_⟩
  obtain ⟨m, target, version, hm, htarget, hversion, rfl⟩ := exists_requestLineOf (hiff.mp h)
  rw [processHeadRequest_requestLineOf .new hm htarget hversion]
  have hquery : (if target.dropWhile (· != 63) = [] then HttpRequest.new.qurey_
      else target.dropWhile (· != 63)) = target.dropWhile (· != 63) := by
    split_ifs with hnil
    · rw [hnil]
      rfl
    · rfl
  rw [HttpRequest.line, hquery, List.takeWhile_append_dropWhile]

/-- The request line sets the method, the version and the two parts of the target. -/
theorem processHeadRequest_requestLine (q : RequestText) :
    processHeadRequest .new q.requestLine = (q.head, true) := by
  refine (processHeadRequest_requestLineOf .new q.method_ne q.space_notMem_target
    q.version_ne).trans ?_
  rw [RequestText.head]
  split_ifs with hquery
  · rw [hquery]
    rfl
  · rfl

/-! ### The header lines -/

/-- The request after the header lines. -/
def addHeaders (request : HttpRequest) (headers : List HeaderLine) : HttpRequest :=
  headers.foldl (fun request h => request.addHeader h.name h.value) request

/-- The header lines and the empty line behind them. -/
theorem headers_flatMap (request : HttpRequest) (headers : List HeaderLine) (rest : List UInt8) :
    Headers request ((headers.flatMap fun h => endLine h.text) ++ endLine [] ++ rest)
      (addHeaders request headers) rest := by
  induction headers generalizing request with
  | nil =>
    have hlast : Headers request (endLine [] ++ rest) request ((endLine [] ++ rest).drop 2) :=
      .last (findCRLF_endLine_append (show IsLine [] by decide) rest) rfl
    exact hlast
  | cons h headers ih =>
    have hassoc : ((h :: headers).flatMap fun h => endLine h.text) ++ endLine [] ++ rest =
        endLine h.text ++ ((headers.flatMap fun h => endLine h.text) ++ endLine [] ++ rest) := by
      simp only [List.flatMap_cons, List.append_assoc]
    rw [hassoc]
    have hcolon (more : List UInt8) :
        splitAtByte 58 ((endLine h.text ++ more).take h.text.length) = (h.name, some h.value) := by
      rw [take_endLine_append]
      exact splitAtByte_append_cons h.colon_notMem_name h.value
    refine .line (findCRLF_endLine_append h.isLine_text _) (hcolon _) ?_
    rw [drop_endLine_append]
    exact ih _

/-- The header lines change the header map only. -/
theorem addHeaders_eq (request : HttpRequest) (headers : List HeaderLine) :
    addHeaders request headers =
      { request with header_ := (addHeaders request headers).header_ } := by
  induction headers generalizing request with
  | nil => rfl
  | cons h headers ih => exact ih (request.addHeader h.name h.value)

/-- The last header line with a name gives its value. -/
theorem getElem?_addHeaders (request : HttpRequest) (headers : List HeaderLine)
    (name : List UInt8) :
    (addHeaders request headers).header_[name]? =
      ((headers.reverse.find? (·.name = name)).map fun h => HttpRequest.headerValue h.value).or
        request.header_[name]? := by
  induction headers using List.reverseRecOn with
  | nil => rfl
  | append_singleton headers h ih =>
    rw [addHeaders, List.foldl_append, List.reverse_append]
    change ((addHeaders request headers).addHeader h.name h.value).header_[name]? = _
    simp only [HttpRequest.addHeader, Std.ExtTreeMap.getElem?_insert,
      Std.LawfulEqCmp.compare_eq_iff_eq, ih, List.reverse_singleton, List.singleton_append,
      List.find?_cons]
    split_ifs with hname
    · rw [decide_eq_true hname]
      rfl
    · rw [decide_eq_false hname]

/-! ### The request -/

/-- The bytes of a request, with any bytes behind them, start with a complete request. -/
theorem starts_encode (q : RequestText) (rest : List UInt8) :
    Starts (q.encode ++ rest) (addHeaders q.head q.headers) rest := by
  rw [RequestText.encode, List.append_assoc, List.append_assoc]
  refine ⟨q.requestLine.length, q.head, findCRLF_endLine_append q.isLine_requestLine _, ?_, ?_⟩
  · rw [take_endLine_append]
    exact processHeadRequest_requestLine q
  · rw [drop_endLine_append, ← List.append_assoc]
    exact headers_flatMap q.head q.headers rest

/-- A parser that is new, or was reset after any use, reads back a request that was written: the
method, the version, the target up to its first question mark and from it on, and for each name the
value of the last header line with that name, without the blanks in front and the white space
behind. The bytes behind the request stay in the buffer. -/
theorem parseRequest_encode (q : RequestText) (a : HttpAnalyse) (beyond : UInt8)
    (rest : List UInt8) :
    ∃ p : HttpAnalyse, new.parseRequest beyond (q.encode ++ rest) = some (p, rest, true) ∧
      a.reset.parseRequest beyond (q.encode ++ rest) = some (p, rest, true) ∧
      p.isover = true ∧ p.request_.m_method_ = q.method ∧ p.request_.m_version_ = q.version ∧
      p.request_.path_ = q.target.takeWhile (· != 63) ∧
      p.request_.qurey_ = q.target.dropWhile (· != 63) ∧
      ∀ name : List UInt8, p.request_.header_[name]? =
        (q.headers.reverse.find? (·.name = name)).map fun h =>
          (h.value.dropWhile isBlank).rdropWhile isspace := by
  have hparse := (starts_encode q rest).parseRequest beyond
  refine ⟨_, hparse, hparse, rfl, ?_, ?_, ?_, ?_, fun name => ?_⟩
  · exact congrArg HttpRequest.m_method_ (addHeaders_eq q.head q.headers)
  · exact congrArg HttpRequest.m_version_ (addHeaders_eq q.head q.headers)
  · exact congrArg HttpRequest.path_ (addHeaders_eq q.head q.headers)
  · exact congrArg HttpRequest.qurey_ (addHeaders_eq q.head q.headers)
  · rw [getElem?_addHeaders]
    exact Option.or_none

end HttpAnalyse

end TinyMuduo
