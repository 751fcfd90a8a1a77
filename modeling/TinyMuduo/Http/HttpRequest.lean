import Mathlib.Data.List.DropRight
import Std.Data.ExtTreeMap
import TinyMuduo.Base.CString

/-!
# HTTP requests

This file embeds `Http/HttpRequest.h`. A `std::string` is the list of its bytes, and a range between
two pointers is the list of the bytes in it. A `std::map` from strings to strings is an extensional
tree map over the lexicographic order of bytes, which is the order of `std::string`.

The time of receipt is left out.

## Main definitions

* `HttpRequest`, with one definition for each member function of the class.

## Main results

* `HttpRequest.getHeader_addHeader`: what a header line adds to the map.
-/

namespace TinyMuduo

/-- A `std::map<std::string, std::string>`. -/
abbrev HeaderMap := Std.ExtTreeMap (List UInt8) (List UInt8)

inductive METHOD
  | GET
  | POST
  | HEAD
  | PUT
  | DELETE
  | TRACE
  | PATH
  | Invalid
  deriving DecidableEq

inductive VERSION
  | UNKNOW
  | HTTP10
  | HTTP11
  deriving DecidableEq

/-- A space or a tab. -/
def isBlank (c : UInt8) : Bool := c == 32 || c == 9

/-- `isspace` in the locale `C`. -/
def isspace (c : UInt8) : Bool := c == 32 || 9 ≤ c && c ≤ 13

structure HttpRequest where
  m_method_ : METHOD
  m_version_ : VERSION
  path_ : List UInt8
  qurey_ : List UInt8
  header_ : HeaderMap
  deriving DecidableEq

namespace HttpRequest

/-- The constructor. -/
def new : HttpRequest := ⟨.Invalid, .UNKNOW, [], [], ∅⟩

variable (r : HttpRequest)

def set_version (version_ : VERSION) : HttpRequest := { r with m_version_ := version_ }

/-- The method of a name, as `setMethod` compares it. -/
def methodOf (m : List UInt8) : METHOD :=
  if m = bytesOf "GET" then .GET
  else if m = bytesOf "POST" then .POST
  else if m = bytesOf "HEAD" then .HEAD
  else if m = bytesOf "PUT" then .PUT
  else if m = bytesOf "DELETE" then .DELETE
  else if m = bytesOf "TRACE" then .TRACE
  else if m = bytesOf "PATH" then .PATH
  else .Invalid

/-- `setMethod`: the request, and whether the name is that of a method. -/
def setMethod (m : List UInt8) : HttpRequest × Bool :=
  ({ r with m_method_ := methodOf m }, methodOf m ≠ .Invalid)

def setPath (path : List UInt8) : HttpRequest := { r with path_ := path }

def setQuery (qurey : List UInt8) : HttpRequest := { r with qurey_ := qurey }

/-- `methodstring`, for the method of a request. -/
def methodstring : METHOD → List UInt8
  | .GET => bytesOf "GET"
  | .POST => bytesOf "POST"
  | .HEAD => bytesOf "HEAD"
  | .PUT => bytesOf "PUT"
  | .DELETE => bytesOf "DELETE"
  | .TRACE => bytesOf "TRACE"
  | .PATH => bytesOf "PATH"
  | .Invalid => bytesOf "UNKONWN"

/-- `setMethod` takes the string of a method for that method. -/
theorem methodOf_methodstring {m : METHOD} (h : m ≠ .Invalid) : methodOf (methodstring m) = m := by
  cases m with
  | Invalid => exact absurd rfl h
  | _ => decide

/-- The value of a header, empty when there is none. -/
def getHeader (field : List UInt8) : List UInt8 := r.header_.getD field []

/-- What `addHeader` makes of the bytes after the colon. -/
def headerValue (bytes : List UInt8) : List UInt8 := (bytes.dropWhile isBlank).rdropWhile isspace

/-- `addHeader`, with the bytes before and after the colon. -/
def addHeader (field bytes : List UInt8) : HttpRequest :=
  { r with header_ := r.header_.insert field (headerValue bytes) }

/-- The last header line with a name gives its value. -/
theorem getHeader_addHeader (field bytes name : List UInt8) :
    (r.addHeader field bytes).getHeader name =
      if name = field then headerValue bytes else r.getHeader name := by
  simp only [getHeader, addHeader, Std.ExtTreeMap.getD_insert, Std.LawfulEqCmp.compare_eq_iff_eq,
    eq_comm (a := name)]

end HttpRequest

end TinyMuduo
