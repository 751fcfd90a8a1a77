import TinyMuduo.Http.HttpAnalyse
import TinyMuduo.Http.HttpResponse

/-!
# The HTTP server

`HttpServer::onMessage` is called by `TcpConnection::handleRead` each time that bytes have been
appended to the input buffer of a connection. This file embeds it, with `OnRequest`, and delivers a
stream of bytes to it in chunks. The input buffer is a byte queue, and what the server does to the
connection is a list of effects. A call that does not return (the loop of the parser goes on, or
an append to the buffer of the response throws) leaves no input buffer.

Each call makes a parser of its own. A request line that has not arrived completely is an error, and
one that has arrived is taken from the input buffer and forgotten when the call returns. So what the
server does depends on how the stream is cut. It answers the requests of a stream in order when each
chunk makes one more request complete (`HttpServer.Covers.foldl_receive`).

## Main definitions

* `HttpServer.Effect`, `HttpServer.OnRequest`, `HttpServer.onMessage`.
* `HttpServer.Session`, `HttpServer.deliver`: a connection and its stream in chunks.
* `HttpServer.Covers`: chunks that complete a request each.

## Main results

* `HttpServer.onMessage_of_findCRLF_eq_none`: without a complete line the call reports an error.
* `HttpServer.Covers.foldl_receive`: chunks that complete a request each are answered in order.
-/

namespace TinyMuduo

namespace HttpServer

/-- The type of `httpCallback_`: it fills in the response to a request. -/
abbrev HttpCallback := HttpRequest → HttpRespne → HttpRespne

/-- `defaultHttpCallback`. -/
def defaultHttpCallback : HttpCallback := fun _ resp =>
  ((resp.setStatusCode .K404NotFound).setStatusMessage (bytesOf "Not Found")).closeConnection true

/-- What the server does: a call of `httpCallback_`, and calls of `send` and `shutdown`. -/
inductive Effect
  | httpCallback (request : HttpRequest)
  | send (message : List UInt8)
  | shutdown

/-- The requests handed to `httpCallback_`. -/
def requests (log : List Effect) : List HttpRequest :=
  log.filterMap fun
    | .httpCallback request => some request
    | _ => none

/-- The bytes passed to `send`. -/
def sentBytes (log : List Effect) : List UInt8 :=
  log.flatMap fun
    | .send message => message
    | _ => []

variable (httpCallback_ : HttpCallback) (fresh : ℕ → UInt8) (beyond : UInt8)

/-- The argument `close` of the response to a request. -/
def closes (req : HttpRequest) : Bool :=
  let connection := req.getHeader (bytesOf "Connection")
  connection == bytesOf "close" ||
    req.m_version_ == .HTTP10 && connection != bytesOf "Keep-alive"

/-- `OnRequest`: what it does, and whether it returns. -/
def OnRequest (req : HttpRequest) : List Effect × Bool :=
  let respone := httpCallback_ req (.new (closes req))
  match respone.appendToBuffer (.new Buffer.kInitialSize) fresh with
  | none => ([.httpCallback req], false)
  | some buf =>
    let message := buf.to_string
    ([.httpCallback req] ++ (if message.length ≠ 0 then [.send message] else []) ++
      (if respone.getclose then [.shutdown] else []), true)

/-- The answer of `onMessage` when `parseRequest` fails. -/
def badRequest : List Effect :=
  [.send (bytesOf "parseRequest failed\n"), .send (bytesOf "HTTP/1.1 400 Bad Request\r\n\r\n"),
    .shutdown]

/-- `onMessage`: what it does, and the input buffer that it leaves when it returns. -/
def onMessage (buf : List UInt8) : List Effect × Option (List UInt8) :=
  match HttpAnalyse.new.parseRequest beyond buf with
  | none => ([], none)
  | some (yser, buf', ok) =>
    let failed := if ok then [] else badRequest
    if yser.isover then
      let (effects, returns) := OnRequest httpCallback_ fresh yser.request_
      (failed ++ effects, if returns then some buf' else none)
    else (failed, some buf')

/-- A connection: its input buffer, until a call does not return, and the effects so far. -/
structure Session where
  inputBuffer_ : Option (List UInt8)
  log : List Effect

/-- Bytes arrive. -/
def Session.receive (s : Session) (chunk : List UInt8) : Session :=
  match s.inputBuffer_ with
  | none => s
  | some buf =>
    let (effects, buf') := onMessage httpCallback_ fresh beyond (buf ++ chunk)
    ⟨buf', s.log ++ effects⟩

/-- A stream arrives in chunks. -/
def deliver (chunks : List (List UInt8)) : Session :=
  chunks.foldl (Session.receive httpCallback_ fresh beyond) ⟨some [], []⟩

@[simp] theorem sentBytes_append (log new : List Effect) :
    sentBytes (log ++ new) = sentBytes log ++ sentBytes new :=
  List.flatMap_append

theorem sentBytes_badRequest_ne_nil : sentBytes badRequest ≠ [] := by decide

variable {httpCallback_ fresh beyond}

/-- Without a complete line the call reports an error and leaves the bytes in the buffer. -/
theorem onMessage_of_findCRLF_eq_none {buf : List UInt8} (h : findCRLF buf = none) :
    onMessage httpCallback_ fresh beyond buf = (badRequest, some buf) := by
  rw [onMessage, HttpAnalyse.parseRequest_of_findCRLF_eq_none h]
  simp [HttpAnalyse.isover, HttpAnalyse.new]

theorem receive_some (buf chunk : List UInt8) (log : List Effect) :
    Session.receive httpCallback_ fresh beyond ⟨some buf, log⟩ chunk =
      ⟨(onMessage httpCallback_ fresh beyond (buf ++ chunk)).2,
        log ++ (onMessage httpCallback_ fresh beyond (buf ++ chunk)).1⟩ :=
  rfl

/-! ### Chunks that complete a request each -/

/-- With each chunk the next request is complete; `carry` are the bytes already in the buffer. -/
inductive Covers : List UInt8 → List (List UInt8) → List HttpRequest → Prop
  | nil {carry} : Covers carry [] []
  | cons {carry chunk request rest chunks requests}
      (hstart : HttpAnalyse.Starts (carry ++ chunk) request rest)
      (hrest : Covers rest chunks requests) : Covers carry (chunk :: chunks) (request :: requests)

/-- A call that finds a complete request answers it. -/
theorem onMessage_of_starts {buf rest : List UInt8} {request : HttpRequest}
    (h : HttpAnalyse.Starts buf request rest) :
    onMessage httpCallback_ fresh beyond buf =
      ((OnRequest httpCallback_ fresh request).1,
        if (OnRequest httpCallback_ fresh request).2 then some rest else none) := by
  rw [onMessage, h.parseRequest beyond]
  simp [HttpAnalyse.isover]

/-- When each chunk makes one more request complete, and the calls return, the server does what it
does for each request, in order. -/
theorem Covers.foldl_receive {carry : List UInt8} {chunks : List (List UInt8)}
    {requests : List HttpRequest} (h : Covers carry chunks requests)
    (hreturns : ∀ request ∈ requests, (OnRequest httpCallback_ fresh request).2 = true)
    (log : List Effect) :
    (chunks.foldl (Session.receive httpCallback_ fresh beyond) ⟨some carry, log⟩).log =
      log ++ requests.flatMap fun request => (OnRequest httpCallback_ fresh request).1 := by
  induction h generalizing log with
  | nil => simp
  | cons hstart _ ih =>
    rw [List.forall_mem_cons] at hreturns
    rw [List.foldl_cons, receive_some, onMessage_of_starts hstart, if_pos hreturns.1,
      ih hreturns.2, List.flatMap_cons, List.append_assoc]

end HttpServer

end TinyMuduo
