import TinyMuduo.Buffer.Basic
import TinyMuduo.Http.HttpRequest

/-!
# HTTP responses

This file embeds `Http/HttpResponse.h` and `Http/HttpResponse.cpp`. What `snprintf` formats into its
buffer of 32 bytes is cut to 31 bytes.

## Main definitions

* `HttpRespne`, `HttpRespne.pieces`: a response, and what is appended for it.
* `HttpRespne.appendToBuffer`.
-/

namespace TinyMuduo

inductive HttpStatusCode
  | KUnknow
  | K200OK
  | K301MovedPermanently
  | K400BadRequest
  | K404NotFound
  deriving DecidableEq

def HttpStatusCode.toNat : HttpStatusCode → ℕ
  | KUnknow => 0
  | K200OK => 200
  | K301MovedPermanently => 301
  | K400BadRequest => 400
  | K404NotFound => 404

/-- The formats `%d` and `%zd` for a number that is not negative. -/
def decimal (n : ℕ) : List UInt8 := (Nat.toDigits 10 n).map Char.toUInt8

/-- What `snprintf` leaves of a text in the local buffer of 32 bytes. -/
def snprintf (text : List UInt8) : List UInt8 := text.take 31

structure HttpRespne where
  headers_ : HeaderMap
  statusCode_ : HttpStatusCode
  statusMessgae_ : List UInt8
  closeConnection_ : Bool
  body_ : List UInt8

namespace HttpRespne

/-- The constructor. -/
def new (close : Bool) : HttpRespne := ⟨∅, .KUnknow, [], close, []⟩

variable (r : HttpRespne)

def setStatusCode (code : HttpStatusCode) : HttpRespne := { r with statusCode_ := code }

def setStatusMessage (message : List UInt8) : HttpRespne := { r with statusMessgae_ := message }

def closeConnection (close : Bool) : HttpRespne := { r with closeConnection_ := close }

def getclose : Bool := r.closeConnection_

def addHeader (key value : List UInt8) : HttpRespne :=
  { r with headers_ := r.headers_.insert key value }

def setBody (body : List UInt8) : HttpRespne := { r with body_ := body }

def setContentType (contentType : List UInt8) : HttpRespne :=
  r.addHeader (bytesOf "Content-Type") contentType

/-- The header lines that frame the body. -/
def framing : List (List UInt8) :=
  if r.closeConnection_ then [bytesOf "Connection: close\r\n"]
  else [snprintf (bytesOf "Content-Length: " ++ decimal r.body_.length ++ bytesOf "\r\n"),
    bytesOf "Connection: Keep-Alive\r\n"]

/-- What `appendToBuffer` appends, one call of `append` after the other. -/
def pieces : List (List UInt8) :=
  [snprintf (bytesOf "HTTP/1.1 " ++ decimal r.statusCode_.toNat ++ bytesOf " "), r.statusMessgae_,
    bytesOf "\r\n"] ++ r.framing ++
  (r.headers_.toList.flatMap fun (key, value) => [key, bytesOf ": ", value, bytesOf "\r\n"]) ++
  [bytesOf "\r\n", r.body_]

/-- `appendToBuffer`. -/
def appendToBuffer (output : Buffer) (fresh : ℕ → UInt8) : Option Buffer :=
  r.pieces.foldlM (fun buffer piece => buffer.append piece fresh) output

end HttpRespne

end TinyMuduo
