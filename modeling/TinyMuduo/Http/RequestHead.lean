import TinyMuduo.Http.HttpAnalyse

/-!
# What a parser takes off the buffer

The grammar of a request: a request line, any number of header lines with a colon and an empty line,
each one ended by `"\r\n"`. `HttpAnalyse::parseRequest` ends the header lines at the first line
without a colon, whether it is empty or not. So the bytes that it takes have the form of the
grammar exactly when that line is empty (`HttpAnalyse.isRequestHead_iff`).

## Main definitions

* `lines`: the complete lines of a buffer.
* `IsRequestLine`, `IsRequestHead`: the grammar.

## Main results

* `HttpAnalyse.starts_of_isover`: where a fresh parser ends over, the buffer starts with a request
  line, lines with a colon and a line without one.
* `HttpAnalyse.isRequestHead_iff`: what the parser takes is a request of the grammar exactly if
  the first line without a colon is empty.
-/

namespace TinyMuduo

/-! ### Lines -/

/-- A line with its end. -/
def endLine (line : List UInt8) : List UInt8 := line ++ [13, 10]

/-- The complete lines of a buffer, without their ends. -/
def lines : List UInt8 → List (List UInt8)
  | 13 :: 10 :: bytes => [] :: lines bytes
  | b :: bytes => (lines bytes).modifyHead (b :: ·)
  | [] => []

/-- A line has no end inside. -/
def IsLine (line : List UInt8) : Prop := findCRLF line = none

instance (line : List UInt8) : Decidable (IsLine line) :=
  inferInstanceAs (Decidable (findCRLF line = none))

/-- The end of a line makes no earlier one. -/
theorem endLine_append_ne {b : UInt8} {line : List UInt8}
    (hne : ∀ bytes, b = 13 → line = 10 :: bytes → False) (rest : List UInt8) (bytes : List UInt8)
    (hb : b = 13) (hcons : endLine line ++ rest = 10 :: bytes) : False := by
  cases line with
  | nil => exact absurd (List.cons.inj hcons).1 (by decide)
  | cons c line => exact hne line hb (congrArg (· :: line) (List.cons.inj hcons).1)

theorem lines_endLine_append {line : List UInt8} (h : IsLine line) (rest : List UInt8) :
    lines (endLine line ++ rest) = line :: lines rest := by
  induction line using findCRLF.induct with
  | case1 bytes => exact absurd h (by simp [IsLine, findCRLF])
  | case2 b bytes hne ih =>
    rw [IsLine, findCRLF.eq_2 _ _ hne, Option.map_eq_none_iff] at h
    rw [show endLine (b :: bytes) ++ rest = b :: (endLine bytes ++ rest) from rfl,
      lines.eq_2 _ _ (endLine_append_ne hne rest), ih h, List.modifyHead_cons]
  | case3 => rfl

/-- The first line of a buffer ends at its first `"\r\n"`. -/
theorem eq_endLine_append_of_findCRLF {bytes : List UInt8} {i : ℕ} (h : findCRLF bytes = some i) :
    bytes = endLine (bytes.take i) ++ bytes.drop (i + 2) := by
  induction bytes using findCRLF.induct generalizing i with
  | case1 bytes =>
    obtain rfl := Option.some.inj h
    rfl
  | case2 b bytes hne ih =>
    rw [findCRLF.eq_2 _ _ hne] at h
    obtain ⟨j, hj, rfl⟩ := Option.map_eq_some_iff.mp h
    rw [List.take_succ_cons, endLine, List.cons_append, List.cons_append]
    exact congrArg (b :: ·) (ih hj)
  | case3 => exact absurd h (by simp [findCRLF])

theorem isLine_take_of_findCRLF {bytes : List UInt8} {i : ℕ} (h : findCRLF bytes = some i) :
    IsLine (bytes.take i) := by
  rw [IsLine, Option.eq_none_iff_forall_ne_some]
  intro j hj
  have hbytes := findCRLF_append hj (bytes.drop i)
  rw [List.take_append_drop, h] at hbytes
  obtain rfl := Option.some.inj hbytes
  have hle := add_two_le_of_findCRLF hj
  rw [List.length_take] at hle
  omega

/-- A line stays a line in front of a separator and another line. -/
theorem IsLine.append_cons {line line' : List UInt8} (h : IsLine line) (h' : IsLine line')
    {c : UInt8} (hcr : c ≠ 13) (hlf : c ≠ 10) : IsLine (line ++ c :: line') := by
  induction line using findCRLF.induct with
  | case1 bytes => exact absurd h (by simp [IsLine, findCRLF])
  | case2 b bytes hne ih =>
    rw [IsLine, findCRLF.eq_2 _ _ hne, Option.map_eq_none_iff] at h
    have hne' : ∀ bytes', b = 13 → bytes ++ c :: line' = 10 :: bytes' → False := by
      rintro bytes' rfl hcons
      cases bytes with
      | nil => exact hlf (List.cons.inj hcons).1
      | cons d bytes => exact hne bytes rfl (congrArg (· :: bytes) (List.cons.inj hcons).1)
    rw [IsLine, List.cons_append, findCRLF.eq_2 _ _ hne', ih h]
    rfl
  | case3 =>
    rw [IsLine, List.nil_append, findCRLF.eq_2 _ _ fun _ hc _ => hcr hc, h']
    rfl

/-- A line ends at its own end. -/
theorem findCRLF_endLine_append {line : List UInt8} (h : IsLine line) (rest : List UInt8) :
    findCRLF (endLine line ++ rest) = some line.length := by
  induction line using findCRLF.induct with
  | case1 bytes => exact absurd h (by simp [IsLine, findCRLF])
  | case2 b bytes hne ih =>
    rw [IsLine, findCRLF.eq_2 _ _ hne, Option.map_eq_none_iff] at h
    rw [show endLine (b :: bytes) ++ rest = b :: (endLine bytes ++ rest) from rfl,
      findCRLF.eq_2 _ _ (endLine_append_ne hne rest), ih h]
    rfl
  | case3 => rfl

theorem take_endLine_append (line rest : List UInt8) :
    (endLine line ++ rest).take line.length = line := by
  rw [endLine, List.append_assoc, List.take_left]

theorem drop_endLine_append (line rest : List UInt8) :
    (endLine line ++ rest).drop (line.length + 2) = rest :=
  List.drop_left' (by rw [endLine, List.length_append]; rfl)

/-! ### The grammar -/

/-- The names of the methods. -/
def methodNames : List (List UInt8) :=
  ["GET", "POST", "HEAD", "PUT", "DELETE", "TRACE", "PATH"].map bytesOf

/-- A method, a target without a space and a version, with one space in between. -/
def IsRequestLine (line : List UInt8) : Prop :=
  ∃ method ∈ methodNames, ∃ target digit, 32 ∉ target ∧ (digit = 48 ∨ digit = 49) ∧
    line = method ++ 32 :: (target ++ 32 :: (bytesOf "HTTP/1." ++ [digit]))

/-- A request line, lines with a colon and an empty line, each one with its end. -/
def IsRequestHead (bytes : List UInt8) : Prop :=
  ∃ (line : List UInt8) (headers : List (List UInt8)), IsLine line ∧ IsRequestLine line ∧
    (∀ h ∈ headers, IsLine h ∧ 58 ∈ h) ∧
      bytes = endLine line ++ headers.flatMap endLine ++ endLine []

theorem splitAtByte_cons (c x : UInt8) (bytes : List UInt8) :
    splitAtByte c (x :: bytes) =
      if x = c then ([], some bytes) else (splitAtByte c bytes).map (x :: ·) id := by
  by_cases hx : x = c <;> simp [splitAtByte, hx]

/-- The bytes before and after the first `c`. -/
theorem splitAtByte_eq_some {c : UInt8} {bytes a b : List UInt8}
    (h : splitAtByte c bytes = (a, some b)) : bytes = a ++ c :: b ∧ c ∉ a := by
  induction bytes generalizing a with
  | nil => exact absurd h (by simp [splitAtByte])
  | cons x bytes ih =>
    rw [splitAtByte_cons] at h
    split_ifs at h with hx
    · obtain ⟨rfl, hb⟩ := Prod.mk.inj h
      obtain rfl := Option.some.inj hb
      exact ⟨by rw [hx]; rfl, List.not_mem_nil⟩
    · obtain ⟨rfl, hb⟩ := Prod.mk.inj h
      obtain ⟨hbytes, hc⟩ := ih (Prod.ext rfl hb)
      exact ⟨congrArg (x :: ·) hbytes, List.not_mem_cons_of_ne_of_not_mem (Ne.symm hx) hc⟩

theorem splitAtByte_eq_none {c : UInt8} {bytes a : List UInt8}
    (h : splitAtByte c bytes = (a, none)) : c ∉ bytes := by
  induction bytes generalizing a with
  | nil => exact List.not_mem_nil
  | cons x bytes ih =>
    rw [splitAtByte_cons] at h
    split_ifs at h with hx
    · exact absurd (Prod.mk.inj h).2 (by simp)
    · exact List.not_mem_cons_of_ne_of_not_mem (Ne.symm hx) (ih (Prod.ext rfl (Prod.mk.inj h).2))

theorem splitAtByte_append_cons {c : UInt8} {a : List UInt8} (h : c ∉ a) (b : List UInt8) :
    splitAtByte c (a ++ c :: b) = (a, some b) := by
  induction a with
  | nil => rw [List.nil_append, splitAtByte_cons, if_pos rfl]
  | cons x a ih =>
    obtain ⟨hx, ha⟩ := not_or.mp (mt List.mem_cons.mpr h)
    rw [List.cons_append, splitAtByte_cons, if_neg (Ne.symm hx), ih ha]
    rfl

namespace HttpAnalyse

private theorem mem_methodNames_of_methodOf {m : List UInt8}
    (h : HttpRequest.methodOf m ≠ .Invalid) : m ∈ methodNames := by
  by_contra hm
  simp only [methodNames, List.map_cons, List.map_nil, List.mem_cons, List.not_mem_nil, or_false,
    not_or] at hm
  obtain ⟨h1, h2, h3, h4, h5, h6, h7⟩ := hm
  exact h (by rw [HttpRequest.methodOf, if_neg h1, if_neg h2, if_neg h3, if_neg h4, if_neg h5,
    if_neg h6, if_neg h7])

/-- The versions that `processHeadRequest` accepts. -/
theorem eq_of_processVersion {request request' : HttpRequest} {version : List UInt8}
    (h : processVersion request version = (request', true)) :
    ∃ digit, (digit = 48 ∨ digit = 49) ∧ version = bytesOf "HTTP/1." ++ [digit] := by
  have hlast {digit : UInt8} (hlen : version.length = 8)
      (htake : version.take 7 = bytesOf "HTTP/1.") (hdigit : version.getLast? = some digit) :
      version = bytesOf "HTTP/1." ++ [digit] := by
    obtain ⟨start, rfl⟩ := List.getLast?_eq_some_iff.mp hdigit
    rw [List.length_append, List.length_singleton] at hlen
    rw [List.take_left' (by omega)] at htake
    rw [htake]
  unfold processVersion at h
  split_ifs at h with hform hone hzero
  · exact ⟨49, .inr rfl, hlast hform.1 hform.2 hone⟩
  · exact ⟨48, .inl rfl, hlast hform.1 hform.2 hzero⟩
  · exact absurd (Prod.mk.inj h).2 (by simp)
  · exact absurd (Prod.mk.inj h).2 (by simp)

/-- The request lines that `processHeadRequest` accepts. -/
theorem isRequestLine_of_processHeadRequest {request request' : HttpRequest} {line : List UInt8}
    (h : processHeadRequest request line = (request', true)) : IsRequestLine line := by
  unfold processHeadRequest at h
  split at h
  · exact absurd (Prod.mk.inj h).2 (by simp)
  · rename_i method bytes hmethod
    obtain ⟨rfl, -⟩ := splitAtByte_eq_some hmethod
    by_cases hname : HttpRequest.methodOf method = .Invalid
    · simp [HttpRequest.setMethod, hname] at h
    · simp only [HttpRequest.setMethod, ne_eq, hname, not_false_eq_true, decide_true, if_true] at h
      split at h
      · exact absurd (Prod.mk.inj h).2 (by simp)
      · rename_i target version htarget
        obtain ⟨rfl, hspace⟩ := splitAtByte_eq_some htarget
        obtain ⟨digit, hdigit, rfl⟩ := eq_of_processVersion h
        exact ⟨method, mem_methodNames_of_methodOf hname, target, digit, hspace, hdigit, rfl⟩

/-! ### Where a fresh parser ends over -/

theorem loop_of_not_hasmore {beyond : UInt8} {fuel : ℕ} {p p' : Parse} (hmore : p.hasmore = false)
    (h : p.loop beyond fuel = some p') : p' = p := by
  cases fuel with
  | zero => exact absurd h (by simp [Parse.loop])
  | succ fuel =>
    rw [Parse.loop, hmore] at h
    exact (Option.some.inj h).symm

/-- Where the loop ends over from the header, the header lines are complete. -/
theorem headers_of_loop {beyond : UInt8} {fuel : ℕ} {request : HttpRequest} {buffer : List UInt8}
    {ok : Bool} {p : Parse}
    (h : Parse.loop beyond fuel ⟨⟨.CHECK_STATE_HEADER, request⟩, buffer, ok, true⟩ = some p)
    (hover : p.analyse.isover = true) : Headers request buffer p.analyse.request_ p.buffer := by
  induction fuel generalizing request buffer with
  | zero => exact absurd h (by simp [Parse.loop])
  | succ fuel ih =>
    have hloop := h
    simp only [Parse.loop, if_true, Parse.iterate, Parse.header] at h
    split at h
    · rename_i pr hpr
      split at h
      · rename_i field bytes hcolon
        exact .line hpr hcolon (ih h)
      · rename_i field hcolon
        have hlast : Headers request buffer request (buffer.drop (pr + 2)) := .last hpr hcolon
        obtain rfl := hlast.loop_eq hloop
        exact hlast
    · obtain rfl := loop_of_not_hasmore rfl h
      exact absurd hover (by simp [isover])

/-- The first iteration of a fresh parser on a complete line. -/
theorem iterate_new {beyond : UInt8} {buffer : List UInt8} {crlf : ℕ} {request : HttpRequest}
    {ok : Bool} (hcrlf : findCRLF buffer = some crlf)
    (hline : processHeadRequest .new (buffer.take crlf) = (request, ok)) :
    Parse.iterate beyond ⟨new, buffer, false, true⟩ =
      if ok then ⟨⟨.CHECK_STATE_HEADER, request⟩, buffer.drop (crlf + 2), true, true⟩
      else ⟨⟨.CHECK_STATE_REQUESTLINE, request⟩, buffer, false, false⟩ := by
  simp only [Parse.iterate, Parse.requestLine, new, hcrlf, hline]

/-- Where a fresh parser ends over, the buffer started with a request. -/
theorem starts_of_isover {beyond : UInt8} {buffer rest : List UInt8} {a : HttpAnalyse} {ok : Bool}
    (h : new.parseRequest beyond buffer = some (a, rest, ok)) (hover : a.isover = true) :
    Starts buffer a.request_ rest := by
  obtain ⟨p, hp, hpair⟩ := Option.map_eq_some_iff.mp h
  simp only [Prod.mk.injEq] at hpair
  obtain ⟨rfl, rfl, -⟩ := hpair
  rw [Parse.loop, if_pos rfl] at hp
  cases hcrlf : findCRLF buffer with
  | none =>
    simp only [Parse.iterate, Parse.requestLine, new, hcrlf] at hp
    obtain rfl := loop_of_not_hasmore rfl hp
    exact absurd hover (by simp [isover])
  | some crlf =>
    rcases hline : processHeadRequest .new (buffer.take crlf) with ⟨request, _ | _⟩
    · rw [iterate_new hcrlf hline, if_neg (by simp)] at hp
      obtain rfl := loop_of_not_hasmore rfl hp
      exact absurd hover (by simp [isover])
    · rw [iterate_new hcrlf hline, if_pos rfl] at hp
      exact ⟨crlf, request, hcrlf, hline, headers_of_loop hp hover⟩

/-- The lines that the parser takes for header lines, and the one at which it stops. -/
theorem Headers.exists_lines {request request' : HttpRequest} {buffer rest : List UInt8}
    (h : Headers request buffer request' rest) :
    ∃ (headers : List (List UInt8)) (last : List UInt8),
      (∀ line ∈ headers, IsLine line ∧ 58 ∈ line) ∧ IsLine last ∧ 58 ∉ last ∧
        buffer = headers.flatMap endLine ++ endLine last ++ rest := by
  induction h with
  | @line _ buffer pr _ _ _ _ hpr hcolon hrest ih =>
    obtain ⟨headers, last, hheaders, hline, hlast, hdrop⟩ := ih
    obtain ⟨htake, -⟩ := splitAtByte_eq_some hcolon
    refine ⟨buffer.take pr :: headers, last, ?_, hline, hlast, ?_⟩
    · rintro line (_ | ⟨_, hmem⟩)
      · exact ⟨isLine_take_of_findCRLF hpr, htake ▸ List.mem_append_right _ List.mem_cons_self⟩
      · exact hheaders line hmem
    · calc buffer = endLine (buffer.take pr) ++ buffer.drop (pr + 2) :=
            eq_endLine_append_of_findCRLF hpr
        _ = _ := by rw [hdrop, List.flatMap_cons]; simp only [List.append_assoc]
  | last hpr hcolon =>
    exact ⟨[], _, by simp, isLine_take_of_findCRLF hpr, splitAtByte_eq_none hcolon,
      eq_endLine_append_of_findCRLF hpr⟩

theorem lines_flatMap_endLine_append {headers : List (List UInt8)}
    (h : ∀ line ∈ headers, IsLine line) (rest : List UInt8) :
    lines (headers.flatMap endLine ++ rest) = headers ++ lines rest := by
  induction headers with
  | nil => rfl
  | cons line headers ih =>
    rw [List.flatMap_cons, List.append_assoc, lines_endLine_append (h line List.mem_cons_self),
      ih fun l hl => h l (List.mem_cons_of_mem _ hl)]
    rfl

/-- The lines of a request line, header lines and the line at which the parser stops. -/
theorem find?_lines {line last rest : List UInt8} {headers : List (List UInt8)}
    (hline : IsLine line) (hheaders : ∀ h ∈ headers, IsLine h ∧ 58 ∈ h) (hlast : IsLine last)
    (hcolon : 58 ∉ last) :
    (lines (endLine line ++ headers.flatMap endLine ++ endLine last ++ rest)).tail.find? (58 ∉ ·) =
      some last := by
  rw [List.append_assoc, List.append_assoc, lines_endLine_append hline, List.tail_cons,
    lines_flatMap_endLine_append fun h hh => (hheaders h hh).1, lines_endLine_append hlast,
    List.find?_append, List.find?_eq_none.mpr (by simpa using fun h hh => (hheaders h hh).2)]
  simp [hcolon]

/-- Where a fresh parser ends over, the bytes that it has taken are a request line, lines with a
colon and an empty line, exactly if the first line without a colon after the request line is
empty. -/
theorem isRequestHead_iff {beyond : UInt8} {buffer rest : List UInt8} {a : HttpAnalyse} {ok : Bool}
    (h : new.parseRequest beyond buffer = some (a, rest, ok)) (hover : a.isover = true) :
    (∃ taken, IsRequestHead taken ∧ buffer = taken ++ rest) ↔
      (lines buffer).tail.find? (58 ∉ ·) = some [] := by
  constructor
  · rintro ⟨_, ⟨line, headers, hline, -, hheaders, rfl⟩, rfl⟩
    exact find?_lines hline hheaders rfl List.not_mem_nil
  · intro hfirst
    obtain ⟨crlf, request₀, hcrlf, hrequest, hlines⟩ := starts_of_isover h hover
    obtain ⟨headers, last, hheaders, hlast, hcolon, hdrop⟩ := hlines.exists_lines
    have hline := isLine_take_of_findCRLF hcrlf
    have hbuffer : buffer = endLine (buffer.take crlf) ++ headers.flatMap endLine ++ endLine last ++
        rest := by
      calc buffer = endLine (buffer.take crlf) ++ buffer.drop (crlf + 2) :=
            eq_endLine_append_of_findCRLF hcrlf
        _ = _ := by rw [hdrop]; simp only [List.append_assoc]
    rw [hbuffer, find?_lines hline hheaders hlast hcolon, Option.some.injEq] at hfirst
    subst hfirst
    exact ⟨_, ⟨buffer.take crlf, headers, hline, isRequestLine_of_processHeadRequest hrequest,
      hheaders, rfl⟩, hbuffer⟩

/-- A request with one header line. -/
theorem isRequestHead_iff_host :
    ∃ taken, IsRequestHead taken ∧
      bytesOf "GET / HTTP/1.1\r\nHost: a\r\n\r\n" = taken ++ [] :=
  have h : new.parseRequest 0 (bytesOf "GET / HTTP/1.1\r\nHost: a\r\n\r\n") =
      some (_, [], true) := rfl
  (isRequestHead_iff h rfl).mpr (by decide +kernel)

/-- A header line without a colon ends the header: the line after it stays in the buffer. -/
theorem exists_isover_not_isRequestHead :
    ∃ a, new.parseRequest 0 (bytesOf "GET / HTTP/1.1\r\nfoo\r\nHost: a\r\n\r\n") =
        some (a, bytesOf "Host: a\r\n\r\n", true) ∧ a.isover = true ∧
      ¬ ∃ taken, IsRequestHead taken ∧
        bytesOf "GET / HTTP/1.1\r\nfoo\r\nHost: a\r\n\r\n" =
          taken ++ bytesOf "Host: a\r\n\r\n" := by
  refine ⟨_, rfl, rfl, ?_⟩
  rintro ⟨_, ⟨line, headers, hline, -, hheaders, rfl⟩, htaken⟩
  have hfirst : (lines (bytesOf "GET / HTTP/1.1\r\nfoo\r\nHost: a\r\n\r\n")).tail.find? (58 ∉ ·) ≠
      some [] := by decide +kernel
  rw [htaken] at hfirst
  exact hfirst (find?_lines hline hheaders rfl List.not_mem_nil)

end HttpAnalyse

end TinyMuduo
