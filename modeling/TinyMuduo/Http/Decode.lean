import TinyMuduo.Http.HttpResponse
import TinyMuduo.Http.RequestHead
import TinyMuduo.Library.Decimal

/-!
# Responses can be read back

A reader takes a response off a stream of bytes: the status line, the header lines up to the first
empty one, and the body, whose extent the first header line gives. It reads back every response
that was written, and in the case of a connection that stays alive it takes no byte behind the body
(`HttpRespne.decode_pieces`). The header lines of the response itself come behind the framing lines,
so a header that repeats their names does not disturb the reader.

## Main definitions

* `HttpRespne.decode`: the reader.
* `HttpRespne.Plain`: the texts of a response have no line ends, and the number of bytes of the body
  fits into the local buffer of `appendToBuffer`.

## Main results

* `HttpRespne.flatten_pieces`: a response is written in lines.
* `HttpRespne.decode_pieces`: it is read back.
-/

namespace TinyMuduo

/-- The status code with a number. -/
def HttpStatusCode.ofNat? : ℕ → Option HttpStatusCode
  | 0 => some KUnknow
  | 200 => some K200OK
  | 301 => some K301MovedPermanently
  | 400 => some K400BadRequest
  | 404 => some K404NotFound
  | _ => none

/-! ### Reading lines -/

/-- The first line, and the bytes behind its end. -/
def readLine (bytes : List UInt8) : Option (List UInt8 × List UInt8) :=
  (findCRLF bytes).map fun i => (bytes.take i, bytes.drop (i + 2))

/-- The lines up to the first empty one, and the bytes behind it. The bytes of the line that is
being read are in `line`. -/
def readLines (line : List UInt8) : List UInt8 → Option (List (List UInt8) × List UInt8)
  | 13 :: 10 :: bytes =>
    if line = [] then some ([], bytes) else (readLines [] bytes).map (Prod.map (line :: ·) id)
  | b :: bytes => readLines (line ++ [b]) bytes
  | [] => none

/-- The name and the value of a header line: it is split at its first colon, and one space behind
the colon is removed. -/
def readField (line : List UInt8) : Option (List UInt8 × List UInt8) :=
  match splitAtByte 58 line with
  | (name, some value) => some (name, if value.head? = some 32 then value.tail else value)
  | (_, none) => none

/-- The code and the message of a status line. -/
def readStatusLine (line : List UInt8) : Option (HttpStatusCode × List UInt8) := do
  let (version, rest) := splitAtByte 32 line
  let (code, message) := splitAtByte 32 (← rest)
  if version = bytesOf "HTTP/1.1" then
    return (← HttpStatusCode.ofNat? (Decimal.value code), ← message)
  else none

namespace HttpRespne

/-- A response with the body at the start of `bytes`. The first header line says how long the body
is, or that it is all the rest; the headers are the lines behind the framing lines. -/
def readBody (code : HttpStatusCode) (message : List UInt8) (lines : List (List UInt8))
    (bytes : List UInt8) : Option (HttpRespne × List UInt8) := do
  let first ← lines.head?
  let (name, value) ← readField first
  if name = bytesOf "Content-Length" then
    let headers ← (lines.drop 2).mapM readField
    let length := Decimal.value value
    if length ≤ bytes.length then
      return (⟨.ofList headers, code, message, false, bytes.take length⟩, bytes.drop length)
    else none
  else if first = bytesOf "Connection: close" then
    let headers ← (lines.drop 1).mapM readField
    return (⟨.ofList headers, code, message, true, bytes⟩, [])
  else none

/-- The response at the start of a stream, and the bytes behind it. -/
def decode (bytes : List UInt8) : Option (HttpRespne × List UInt8) := do
  let (statusLine, bytes) ← readLine bytes
  let (code, message) ← readStatusLine statusLine
  let (lines, bytes) ← readLines [] bytes
  readBody code message lines bytes

/-- The status message, the names and the values of the headers have no line end inside, the names
no colon, and the size of the body has at most thirteen digits. -/
structure Plain (r : HttpRespne) : Prop where
  isLine_message : IsLine r.statusMessgae_
  isLine_name : ∀ h ∈ r.headers_.toList, IsLine h.1
  isLine_value : ∀ h ∈ r.headers_.toList, IsLine h.2
  colon_notMem_name : ∀ h ∈ r.headers_.toList, 58 ∉ h.1
  length_body_lt : r.body_.length < 10 ^ 13

end HttpRespne

/-! ### Lines that were written -/

private theorem isLine_of_notMem {line : List UInt8} (h : 13 ∉ line) : IsLine line := by
  rw [IsLine, Option.eq_none_iff_forall_ne_some]
  intro i hi
  apply h
  rw [eq_endLine_append_of_findCRLF hi]
  simp [endLine]

theorem readLine_endLine_append {line : List UInt8} (h : IsLine line) (rest : List UInt8) :
    readLine (endLine line ++ rest) = some (line, rest) := by
  rw [readLine, findCRLF_endLine_append h, Option.map_some, take_endLine_append,
    drop_endLine_append]

theorem readLines_endLine_append {line : List UInt8} (h : IsLine line) (start rest : List UInt8) :
    readLines start (endLine line ++ rest) =
      if start ++ line = [] then some ([], rest)
      else (readLines [] rest).map (Prod.map ((start ++ line) :: ·) id) := by
  induction line using findCRLF.induct generalizing start with
  | case1 bytes => exact absurd h (by simp [IsLine, findCRLF])
  | case2 b bytes hne ih =>
    rw [IsLine, findCRLF.eq_2 _ _ hne, Option.map_eq_none_iff] at h
    rw [show endLine (b :: bytes) ++ rest = b :: (endLine bytes ++ rest) from rfl,
      readLines.eq_2 _ _ _ (endLine_append_ne hne rest), ih h, List.append_assoc,
      List.singleton_append]
  | case3 => rw [List.append_nil]; rfl

/-- Lines that are not empty are read up to the empty line behind them. -/
theorem readLines_flatMap {lines : List (List UInt8)} (h : ∀ line ∈ lines, IsLine line ∧ line ≠ [])
    (rest : List UInt8) :
    readLines [] (lines.flatMap endLine ++ (endLine [] ++ rest)) = some (lines, rest) := by
  induction lines with
  | nil => rfl
  | cons line lines ih =>
    obtain ⟨hline, hne⟩ := h line List.mem_cons_self
    rw [List.flatMap_cons, List.append_assoc, readLines_endLine_append hline, List.nil_append,
      if_neg hne, ih fun l hl => h l (List.mem_cons_of_mem _ hl)]
    rfl

/-! ### What a response writes -/

namespace HttpRespne

variable (r : HttpRespne)

def statusLine : List UInt8 :=
  bytesOf "HTTP/1.1" ++ 32 :: (Decimal.digits r.statusCode_.toNat ++ 32 :: r.statusMessgae_)

def framingLines : List (List UInt8) :=
  if r.closeConnection_ then [bytesOf "Connection: close"]
  else [bytesOf "Content-Length" ++ 58 :: 32 :: Decimal.digits r.body_.length,
    bytesOf "Connection: Keep-Alive"]

def fieldLine (h : List UInt8 × List UInt8) : List UInt8 := h.1 ++ 58 :: 32 :: h.2

variable {r}

private theorem flatten_framing (h : r.body_.length < 10 ^ 13) :
    r.framing.flatten = r.framingLines.flatMap endLine := by
  have hdigits := (Decimal.length_digits_le_iff (by decide)).mpr h
  have hfits : snprintf (bytesOf "Content-Length: " ++ decimal r.body_.length ++ bytesOf "\r\n") =
      bytesOf "Content-Length: " ++ decimal r.body_.length ++ bytesOf "\r\n" := by
    refine List.take_of_length_le ?_
    have hdecimal : (decimal r.body_.length).length ≤ 13 := hdigits
    simp only [List.length_append]
    change 16 + _ + 2 ≤ 31
    omega
  unfold framing framingLines
  split_ifs
  · rfl
  · rw [hfits, List.append_assoc]
    rfl

private theorem flatten_fields (fields : List (List UInt8 × List UInt8)) :
    (fields.flatMap fun (key, value) => [key, bytesOf ": ", value, bytesOf "\r\n"]).flatten =
      (fields.map fieldLine).flatMap endLine := by
  induction fields with
  | nil => rfl
  | cons h fields ih =>
    rw [List.flatMap_cons, List.flatten_append, ih, List.map_cons, List.flatMap_cons]
    change (h.1 ++ ([58, 32] ++ (h.2 ++ [13, 10]))) ++ _ = endLine (fieldLine h) ++ _
    simp [endLine, fieldLine]

/-- A response is written in lines. -/
theorem flatten_pieces (h : r.body_.length < 10 ^ 13) :
    r.pieces.flatten = endLine r.statusLine ++
      ((r.framingLines ++ r.headers_.toList.map fieldLine).flatMap endLine ++
        (endLine [] ++ r.body_)) := by
  have hstatus : snprintf (bytesOf "HTTP/1.1 " ++ decimal r.statusCode_.toNat ++ bytesOf " ") =
      bytesOf "HTTP/1.1" ++ 32 :: (Decimal.digits r.statusCode_.toNat ++ [32]) := by
    cases r.statusCode_ <;> rfl
  rw [pieces, List.flatten_append, List.flatten_append, List.flatten_append, flatten_framing h,
    flatten_fields, List.flatMap_append, hstatus, statusLine]
  simp only [List.flatten_cons, List.flatten_nil, List.append_nil, endLine, List.append_assoc,
    List.cons_append, List.nil_append]
  rfl

/-! ### Reading it back -/

theorem ofNat?_toNat (code : HttpStatusCode) : HttpStatusCode.ofNat? code.toNat = some code := by
  cases code <;> rfl

private theorem notMem_digits {n : ℕ} {b : UInt8} (hb : b < 48 ∨ 57 < b) :
    b ∉ Decimal.digits n := by
  intro hmem
  obtain ⟨hlo, hhi⟩ := Decimal.mem_digits hmem
  rcases hb with hb | hb
  · exact absurd hlo (UInt8.not_le.mpr hb)
  · exact absurd hhi (UInt8.not_le.mpr hb)

private theorem isLine_digits (n : ℕ) : IsLine (Decimal.digits n) :=
  isLine_of_notMem (notMem_digits (.inl (by decide)))

private theorem readStatusLine_statusLine : readStatusLine r.statusLine =
    some (r.statusCode_, r.statusMessgae_) := by
  have hversion := splitAtByte_append_cons (c := 32) (a := bytesOf "HTTP/1.1") (by decide)
    (Decimal.digits r.statusCode_.toNat ++ 32 :: r.statusMessgae_)
  have hcode := splitAtByte_append_cons (c := 32) (a := Decimal.digits r.statusCode_.toNat)
    (notMem_digits (.inl (by decide))) r.statusMessgae_
  simp only [readStatusLine, statusLine, hversion, hcode, Option.bind_eq_bind, Option.bind_some,
    if_true, Decimal.value_digits, ofNat?_toNat]
  rfl

private theorem readField_fieldLine {h : List UInt8 × List UInt8} (hcolon : 58 ∉ h.1) :
    readField (fieldLine h) = some h := by
  rw [readField, fieldLine, splitAtByte_append_cons hcolon]
  rfl

private theorem mapM_readField {fields : List (List UInt8 × List UInt8)}
    (h : ∀ f ∈ fields, 58 ∉ f.1) : (fields.map fieldLine).mapM readField = some fields := by
  induction fields with
  | nil => rfl
  | cons f fields ih =>
    rw [List.map_cons, List.mapM_cons, readField_fieldLine (h f List.mem_cons_self),
      ih fun g hg => h g (List.mem_cons_of_mem _ hg)]
    rfl

theorem Plain.isLine_statusLine (h : r.Plain) : IsLine r.statusLine := by
  have hcode := (isLine_digits r.statusCode_.toNat).append_cons h.isLine_message (c := 32)
    (by decide) (by decide)
  exact IsLine.append_cons (by decide) hcode (by decide) (by decide)

private theorem isLine_framingLines {line : List UInt8} (h : line ∈ r.framingLines) :
    IsLine line ∧ line ≠ [] := by
  unfold framingLines at h
  split_ifs at h
  · obtain rfl := List.mem_singleton.mp h
    decide
  · rcases List.mem_cons.mp h with rfl | h
    · refine ⟨IsLine.append_cons (by decide) ?_ (by decide) (by decide), by simp⟩
      exact (show IsLine [] by decide).append_cons (isLine_digits _) (by decide) (by decide)
    · obtain rfl := List.mem_singleton.mp h
      decide

/-- The lines between the status line and the body. -/
theorem Plain.isLine_lines (h : r.Plain) :
    ∀ line ∈ r.framingLines ++ r.headers_.toList.map fieldLine, IsLine line ∧ line ≠ [] := by
  intro line hmem
  rcases List.mem_append.mp hmem with hmem | hmem
  · exact isLine_framingLines hmem
  · obtain ⟨f, hf, rfl⟩ := List.mem_map.mp hmem
    refine ⟨(h.isLine_name f hf).append_cons ?_ (by decide) (by decide), by simp [fieldLine]⟩
    exact (show IsLine [] by decide).append_cons (h.isLine_value f hf) (by decide) (by decide)

/-- A map is read back from the list of its entries. -/
theorem ofList_toList (m : HeaderMap) : Std.ExtTreeMap.ofList m.toList = m := by
  refine Std.ExtTreeMap.ext_getElem? fun name => ?_
  cases hvalue : m[name]? with
  | none =>
    refine Std.ExtTreeMap.getElem?_ofList_of_contains_eq_false ?_
    rw [← Bool.not_eq_true, List.contains_iff_mem]
    intro hmem
    obtain ⟨⟨_, value⟩, hentry, rfl⟩ := List.mem_map.mp hmem
    rw [Std.ExtTreeMap.mem_toList_iff_getElem?_eq_some] at hentry
    exact absurd (hvalue.symm.trans hentry) (by simp)
  | some value =>
    exact Std.ExtTreeMap.getElem?_ofList_of_mem Std.ReflCmp.compare_self
      Std.ExtTreeMap.distinct_keys_toList
      (Std.ExtTreeMap.mem_toList_iff_getElem?_eq_some.mpr hvalue)

/-- The lines of a response are read back up to its body. -/
theorem decode_append (h : r.Plain) (rest : List UInt8) :
    decode (r.pieces.flatten ++ rest) =
      readBody r.statusCode_ r.statusMessgae_
        (r.framingLines ++ r.headers_.toList.map fieldLine) (r.body_ ++ rest) := by
  rw [flatten_pieces h.length_body_lt, List.append_assoc, List.append_assoc, List.append_assoc,
    decode, readLine_endLine_append h.isLine_statusLine, Option.bind_eq_bind, Option.bind_some]
  simp only [readStatusLine_statusLine, readLines_flatMap h.isLine_lines, Option.bind_eq_bind,
    Option.bind_some]

theorem readBody_close (h : r.Plain) (hclose : r.closeConnection_ = true) :
    readBody r.statusCode_ r.statusMessgae_
        (r.framingLines ++ r.headers_.toList.map fieldLine) r.body_ = some (r, []) := by
  have hframing : r.framingLines = [bytesOf "Connection: close"] := if_pos hclose
  have hfirst : readField (bytesOf "Connection: close") =
      some (bytesOf "Connection", bytesOf "close") := by decide
  simp only [readBody, hframing, List.singleton_append, List.head?_cons, Option.bind_eq_bind,
    Option.bind_some, hfirst, List.drop_succ_cons, List.drop_zero,
    mapM_readField h.colon_notMem_name, ofList_toList]
  rw [if_neg (by decide), if_pos trivial, ← hclose]
  rfl

theorem readBody_alive (h : r.Plain) (halive : r.closeConnection_ = false) (rest : List UInt8) :
    readBody r.statusCode_ r.statusMessgae_
        (r.framingLines ++ r.headers_.toList.map fieldLine) (r.body_ ++ rest) = some (r, rest) := by
  have hframing : r.framingLines = [fieldLine (bytesOf "Content-Length",
      Decimal.digits r.body_.length), bytesOf "Connection: Keep-Alive"] := if_neg (by simp [halive])
  have hlength : r.body_.length ≤ (r.body_ ++ rest).length := by
    rw [List.length_append]
    omega
  have hfirst : readField (fieldLine (bytesOf "Content-Length", Decimal.digits r.body_.length)) =
      some (bytesOf "Content-Length", Decimal.digits r.body_.length) :=
    readField_fieldLine (show 58 ∉ bytesOf "Content-Length" by decide)
  simp only [readBody, hframing, List.cons_append, List.nil_append, List.head?_cons,
    Option.bind_eq_bind, Option.bind_some, hfirst, List.drop_succ_cons, List.drop_zero,
    mapM_readField h.colon_notMem_name, ofList_toList, Decimal.value_digits]
  rw [if_pos trivial, if_pos hlength, List.take_left, List.drop_left, ← halive]
  rfl

/-- A response that was written is read back. When the connection stays alive, the bytes behind the
body stay in the stream. -/
theorem decode_pieces (h : r.Plain) :
    (r.closeConnection_ = true → decode r.pieces.flatten = some (r, [])) ∧
      (r.closeConnection_ = false → ∀ rest : List UInt8,
        decode (r.pieces.flatten ++ rest) = some (r, rest)) := by
  constructor
  · intro hclose
    have hread := decode_append h []
    rw [List.append_nil, List.append_nil] at hread
    exact hread.trans (readBody_close h hclose)
  · intro halive rest
    exact (decode_append h rest).trans (readBody_alive h halive rest)

/-- A header that repeats a framing line, and a body that starts with an empty line. -/
theorem decode_pieces_repeated :
    let r : HttpRespne := ⟨.ofList [(bytesOf "Content-Length", bytesOf "7"), ([], [])], .K200OK,
      bytesOf "OK", false, bytesOf "\r\n\r\nab"⟩
    (r.closeConnection_ = true → decode r.pieces.flatten = some (r, [])) ∧
      (r.closeConnection_ = false → ∀ rest : List UInt8,
        decode (r.pieces.flatten ++ rest) = some (r, rest)) :=
  decode_pieces ⟨by decide, by decide +kernel, by decide +kernel, by decide +kernel, by decide⟩

end HttpRespne

end TinyMuduo
