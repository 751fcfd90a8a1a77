import TinyMuduo.Http.HttpRequest
import TinyMuduo.Library.Transition

/-!
# The request parser

This file embeds `Http/Http_analyse.cpp`, with `Buffer::findCRLF`. The buffer is a byte queue: the
list of its readable bytes. A `while` loop is run with fuel; with too little fuel, or when it never
ends, the result is `none`.

At a header line without a colon the parser reads the byte after the line. When the buffer ends
there, this is the byte `beyond` the readable ones, whatever it may be.

## Main definitions

* `findCRLF`, `HttpAnalyse`, `HttpAnalyse.processHeadRequest`.
* `HttpAnalyse.Parse`, `HttpAnalyse.Parse.iterate`: the variables of `parseRequest`, and one
  iteration of its loop.
* `HttpAnalyse.parseRequest`.
* `HttpAnalyse.Call`, `HttpAnalyse.call`: the calls of `parseRequest` and `reset`.

## Main results

* `HttpAnalyse.Parse.exists_loop_eq`: the loop ends unless it starts in `CHECK_STATE_OVER`.
* `HttpAnalyse.loop_ends_iff`: there it never ends.
* `HttpAnalyse.parseRequest_of_findCRLF_eq_none`: what a fresh parser does with an unfinished line.
-/

namespace TinyMuduo

/-- `Buffer::findCRLF`: the position of the first `"\r\n"`. -/
def findCRLF : List UInt8 → Option ℕ
  | 13 :: 10 :: _ => some 0
  | _ :: bytes => (findCRLF bytes).map (· + 1)
  | [] => none

/-- The bytes up to the `"\r\n"` and the `"\r\n"` itself are in the buffer. -/
theorem add_two_le_of_findCRLF {bytes : List UInt8} {i : ℕ} (h : findCRLF bytes = some i) :
    i + 2 ≤ bytes.length := by
  induction bytes using findCRLF.induct generalizing i with
  | case1 bytes =>
    obtain rfl := Option.some.inj h
    simp
  | case2 b bytes hne ih =>
    rw [findCRLF.eq_2 _ _ hne] at h
    obtain ⟨j, hj, rfl⟩ := Option.map_eq_some_iff.mp h
    have hle := ih hj
    rw [List.length_cons]
    omega
  | case3 => exact absurd h (by simp [findCRLF])

/-- Bytes that arrive later do not change the position. -/
theorem findCRLF_append {bytes : List UInt8} {i : ℕ} (h : findCRLF bytes = some i)
    (more : List UInt8) : findCRLF (bytes ++ more) = some i := by
  induction bytes using findCRLF.induct generalizing i with
  | case1 bytes => exact h
  | case2 b bytes hne ih =>
    rw [findCRLF.eq_2 _ _ hne] at h
    obtain ⟨j, hj, rfl⟩ := Option.map_eq_some_iff.mp h
    have hne' : ∀ bytes', b = 13 → bytes ++ more = 10 :: bytes' → False := by
      rintro bytes' rfl hcons
      cases bytes with
      | nil => exact absurd hj (by simp [findCRLF])
      | cons c bytes => exact hne bytes rfl (by simpa using (List.cons.inj hcons).1)
    rw [List.cons_append, findCRLF.eq_2 _ _ hne', ih hj]
    rfl
  | case3 => exact absurd h (by simp [findCRLF])

theorem take_append_of_findCRLF {bytes : List UInt8} {i : ℕ} (h : findCRLF bytes = some i)
    (more : List UInt8) : (bytes ++ more).take i = bytes.take i :=
  List.take_append_of_le_length (by have := add_two_le_of_findCRLF h; omega)

theorem drop_append_of_findCRLF {bytes : List UInt8} {i : ℕ} (h : findCRLF bytes = some i)
    (more : List UInt8) : (bytes ++ more).drop (i + 2) = bytes.drop (i + 2) ++ more :=
  List.drop_append_of_le_length (add_two_le_of_findCRLF h)

/-- The bytes up to the first `c`, and those after it when there is a `c`. -/
def splitAtByte (c : UInt8) (bytes : List UInt8) : List UInt8 × Option (List UInt8) :=
  (bytes.takeWhile (· != c), (bytes.dropWhile (· != c)).tail?)

inductive Check_State
  | CHECK_STATE_REQUESTLINE
  | CHECK_STATE_HEADER
  | CHECK_STATE_CONTENT
  | CHECK_STATE_OVER
  deriving DecidableEq

structure HttpAnalyse where
  m_state_ : Check_State
  request_ : HttpRequest
  deriving DecidableEq

namespace HttpAnalyse

/-- The constructor. -/
def new : HttpAnalyse := ⟨.CHECK_STATE_REQUESTLINE, .new⟩

def reset (_a : HttpAnalyse) : HttpAnalyse := ⟨.CHECK_STATE_REQUESTLINE, .new⟩

def isover (a : HttpAnalyse) : Bool := a.m_state_ == .CHECK_STATE_OVER

/-- The version of `processHeadRequest`: what follows the second space. -/
def processVersion (request : HttpRequest) (version : List UInt8) : HttpRequest × Bool :=
  if version.length = 8 ∧ version.take 7 = bytesOf "HTTP/1." then
    if version.getLast? = some 49 then (request.set_version .HTTP11, true)
    else if version.getLast? = some 48 then (request.set_version .HTTP10, true)
    else (request, false)
  else (request, false)

/-- `processHeadRequest` on the bytes of the request line: the request, and whether it succeeds. -/
def processHeadRequest (request : HttpRequest) (line : List UInt8) : HttpRequest × Bool :=
  match splitAtByte 32 line with
  | (_, none) => (request, false)
  | (method, some bytes) =>
    let (request, isMethod) := request.setMethod method
    if isMethod then
      match splitAtByte 32 bytes with
      | (_, none) => (request, false)
      | (target, some version) =>
        let path := target.takeWhile (· != 63)
        let query := target.dropWhile (· != 63)
        let request := request.setPath path
        processVersion (if query = [] then request else request.setQuery query) version
    else (request, false)

/-- The variables of `parseRequest`. -/
structure Parse where
  analyse : HttpAnalyse
  buffer : List UInt8
  ok : Bool
  hasmore : Bool

namespace Parse

variable (beyond : UInt8) (p : Parse)

/-- The iteration in `CHECK_STATE_REQUESTLINE`. -/
def requestLine : Parse :=
  match findCRLF p.buffer with
  | some crlf =>
    let (request, ok) := processHeadRequest p.analyse.request_ (p.buffer.take crlf)
    if ok then
      { p with
        analyse := ⟨.CHECK_STATE_HEADER, request⟩
        buffer := p.buffer.drop (crlf + 2)
        ok := true }
    else { p with analyse := { p.analyse with request_ := request }, ok := false, hasmore := false }
  | none => { p with hasmore := false }

/-- The iteration in `CHECK_STATE_HEADER`. -/
def header : Parse :=
  match findCRLF p.buffer with
  | some pr =>
    let rest := p.buffer.drop (pr + 2)
    match splitAtByte 58 (p.buffer.take pr) with
    | (field, some bytes) =>
      { p with
        analyse := { p.analyse with request_ := p.analyse.request_.addHeader field bytes }
        buffer := rest }
    | (_, none) =>
      if rest.headD beyond = 0 then
        { p with
          analyse := { p.analyse with m_state_ := .CHECK_STATE_OVER }
          buffer := rest
          hasmore := false }
      else { p with analyse := { p.analyse with m_state_ := .CHECK_STATE_CONTENT }, buffer := rest }
  | none => { p with hasmore := false }

/-- One iteration of the loop of `parseRequest`. -/
def iterate : Parse :=
  match p.analyse.m_state_ with
  | .CHECK_STATE_REQUESTLINE => p.requestLine
  | .CHECK_STATE_HEADER => p.header beyond
  | .CHECK_STATE_CONTENT =>
    { p with analyse := { p.analyse with m_state_ := .CHECK_STATE_OVER }, hasmore := false }
  | .CHECK_STATE_OVER => p

/-- The loop of `parseRequest`. -/
def loop : ℕ → Parse → Option Parse
  | 0, _ => none
  | fuel + 1, p => if p.hasmore then loop fuel (p.iterate beyond) else some p

end Parse

/-- `parseRequest`: the parser and the buffer after it, and what it returns. Every iteration but the
last one takes two bytes or goes from the header to the content. -/
def parseRequest (beyond : UInt8) (a : HttpAnalyse) (buffer : List UInt8) :
    Option (HttpAnalyse × List UInt8 × Bool) :=
  (Parse.loop beyond (buffer.length + 3) ⟨a, buffer, false, true⟩).map fun p =>
    (p.analyse, p.buffer, p.ok)

/-! ### The loop ends -/

namespace Parse

variable (beyond : UInt8) {p : Parse}

/-- A bound on the iterations that are left. -/
def remaining (p : Parse) : ℕ :=
  if p.hasmore then
    if p.analyse.m_state_ = .CHECK_STATE_CONTENT then 1 else p.buffer.length + 2
  else 0

/-- An iteration ends the loop, or takes a line, or goes from the header to the content. -/
theorem remaining_iterate_lt (hmore : p.hasmore = true)
    (hstate : p.analyse.m_state_ ≠ .CHECK_STATE_OVER) :
    (p.iterate beyond).remaining < p.remaining ∧ ((p.iterate beyond).hasmore = true →
      (p.iterate beyond).analyse.m_state_ ≠ .CHECK_STATE_OVER) := by
  unfold iterate
  cases hs : p.analyse.m_state_ with
  | CHECK_STATE_OVER => exact absurd hs hstate
  | CHECK_STATE_CONTENT => simp [remaining, hmore, hs]
  | CHECK_STATE_REQUESTLINE =>
    simp only [requestLine]
    split
    · rename_i crlf hcrlf
      have hle := add_two_le_of_findCRLF hcrlf
      split
      · simp [remaining, hmore, hs]
        omega
      · simp [remaining, hmore, hs]
    · simp [remaining, hmore, hs]
  | CHECK_STATE_HEADER =>
    simp only [header]
    split
    · rename_i pr hpr
      have hle := add_two_le_of_findCRLF hpr
      split
      · simp [remaining, hmore, hs]
        omega
      · split_ifs <;> simp [remaining, hmore, hs]
    · simp [remaining, hmore, hs]

/-- The loop ends, with enough fuel, unless it is entered in `CHECK_STATE_OVER`. -/
theorem exists_loop_eq : (fuel : ℕ) → {p : Parse} →
    (p.hasmore = true → p.analyse.m_state_ ≠ .CHECK_STATE_OVER) → p.remaining < fuel →
    ∃ p', p.loop beyond fuel = some p'
  | 0, _, _, hfuel => absurd hfuel (Nat.not_lt_zero _)
  | fuel + 1, p, hstate, hfuel => by
    cases hmore : p.hasmore with
    | false => exact ⟨p, by simp [loop, hmore]⟩
    | true =>
      obtain ⟨hlt, hstate'⟩ := remaining_iterate_lt beyond hmore (hstate hmore)
      obtain ⟨p', hp'⟩ := exists_loop_eq fuel hstate' (by omega)
      exact ⟨p', by simpa [loop, hmore] using hp'⟩

/-- The fuel of `parseRequest` is enough. -/
theorem exists_loop_length_eq {a : HttpAnalyse} (hstate : a.m_state_ ≠ .CHECK_STATE_OVER)
    (buffer : List UInt8) (ok : Bool) :
    ∃ p', loop beyond (buffer.length + 3) ⟨a, buffer, ok, true⟩ = some p' := by
  refine exists_loop_eq beyond _ (fun _ => hstate) ?_
  simp only [remaining, if_true]
  split <;> omega

/-- No state of the loop is left in `CHECK_STATE_OVER`. -/
theorem loop_eq_none_of_over (hmore : p.hasmore = true)
    (hstate : p.analyse.m_state_ = .CHECK_STATE_OVER) (fuel : ℕ) : p.loop beyond fuel = none := by
  induction fuel with
  | zero => rfl
  | succ fuel ih =>
    have hiterate : p.iterate beyond = p := by simp only [iterate, hstate]
    rw [loop, if_pos hmore, hiterate, ih]

end Parse

/-- The calls of a parser. -/
inductive Call
  | parseRequest (beyond : UInt8) (buffer : List UInt8)
  | reset

/-- The parser after a call. A call that does not end leaves none. -/
def call (a : HttpAnalyse) : Call → Option HttpAnalyse
  | .parseRequest beyond buffer => (a.parseRequest beyond buffer).map Prod.fst
  | .reset => some a.reset

/-- **The end of the loop.** For every parser, every buffer and every byte behind it, the loop of
`parseRequest` ends if and only if the parser is not over, and then `parseRequest` has a result. -/
theorem loop_ends_iff (beyond : UInt8) (a : HttpAnalyse) (buffer : List UInt8) :
    ((∃ fuel p, Parse.loop beyond fuel ⟨a, buffer, false, true⟩ = some p) ↔
      a.m_state_ ≠ .CHECK_STATE_OVER) ∧
    (a.m_state_ ≠ .CHECK_STATE_OVER → (a.parseRequest beyond buffer).isSome) := by
  refine ⟨⟨?_, fun hstate => ?_⟩, fun hstate => ?_⟩
  · rintro ⟨fuel, p, hp⟩ hstate
    rw [Parse.loop_eq_none_of_over beyond rfl hstate] at hp
    cases hp
  · exact ⟨_, Parse.exists_loop_length_eq beyond hstate buffer false⟩
  · obtain ⟨p, hp⟩ := Parse.exists_loop_length_eq beyond hstate buffer false
    rw [parseRequest, hp]
    rfl

/-- After a complete request the parser is over. Called again without a `reset` it never returns. -/
theorem loop_never_ends :
    ∃ a, Transition.Reaches (Transition.ofStep call) Transition.anyLabel new a ∧
      ∀ beyond buffer fuel, Parse.loop beyond fuel ⟨a, buffer, false, true⟩ = none := by
  obtain ⟨a, ha, hover⟩ := Transition.Reaches.exists_of_run (C := Transition.anyLabel)
    (s := new) (P := fun a : HttpAnalyse => a.m_state_ = .CHECK_STATE_OVER) call
    [.parseRequest 0 (bytesOf "GET / HTTP/1.1\r\n\r\n")] (by decide +kernel)
  exact ⟨a, ha, fun beyond buffer fuel => Parse.loop_eq_none_of_over beyond rfl hover fuel⟩

/-! ### Complete requests -/

/-- The header lines at the start of a buffer, up to a line without a colon, make one request out of
another and leave the rest of the buffer. -/
inductive Headers : HttpRequest → List UInt8 → HttpRequest → List UInt8 → Prop
  | line {request buffer pr field bytes request' rest} (hpr : findCRLF buffer = some pr)
      (hcolon : splitAtByte 58 (buffer.take pr) = (field, some bytes))
      (hrest : Headers (request.addHeader field bytes) (buffer.drop (pr + 2)) request' rest) :
      Headers request buffer request' rest
  | last {request buffer pr field} (hpr : findCRLF buffer = some pr)
      (hcolon : splitAtByte 58 (buffer.take pr) = (field, none)) :
      Headers request buffer request (buffer.drop (pr + 2))

section Inversion

variable {request request' : HttpRequest} {buffer field rest : List UInt8} {pr : ℕ}

theorem Headers.exists_findCRLF (h : Headers request buffer request' rest) :
    ∃ pr, findCRLF buffer = some pr := by
  cases h with
  | line hpr => exact ⟨_, hpr⟩
  | last hpr => exact ⟨_, hpr⟩

/-- A line with a colon is followed by the other header lines. -/
theorem headers_iff_of_line {bytes : List UInt8} (hpr : findCRLF buffer = some pr)
    (hcolon : splitAtByte 58 (buffer.take pr) = (field, some bytes)) :
    Headers request buffer request' rest ↔
      Headers (request.addHeader field bytes) (buffer.drop (pr + 2)) request' rest := by
  refine ⟨fun h => ?_, .line hpr hcolon⟩
  cases h with
  | line hpr' hcolon' hrest =>
    obtain rfl := Option.some.inj (hpr.symm.trans hpr')
    obtain ⟨rfl, hbytes⟩ := Prod.mk.inj (hcolon.symm.trans hcolon')
    obtain rfl := Option.some.inj hbytes
    exact hrest
  | last hpr' hcolon' =>
    obtain rfl := Option.some.inj (hpr.symm.trans hpr')
    exact absurd (Prod.mk.inj (hcolon.symm.trans hcolon')).2 (by simp)

/-- A line without a colon is the last one. -/
theorem headers_iff_of_last (hpr : findCRLF buffer = some pr)
    (hcolon : splitAtByte 58 (buffer.take pr) = (field, none)) :
    Headers request buffer request' rest ↔ request' = request ∧ rest = buffer.drop (pr + 2) := by
  constructor
  · intro h
    cases h with
    | line hpr' hcolon' =>
      obtain rfl := Option.some.inj (hpr.symm.trans hpr')
      exact absurd (Prod.mk.inj (hcolon.symm.trans hcolon')).2 (by simp)
    | last hpr' hcolon' =>
      obtain rfl := Option.some.inj (hpr.symm.trans hpr')
      exact ⟨rfl, rfl⟩
  · rintro ⟨rfl, rfl⟩
    exact .last hpr hcolon

end Inversion

/-- The buffer starts with a complete request. -/
def Starts (buffer : List UInt8) (request : HttpRequest) (rest : List UInt8) : Prop :=
  ∃ crlf request₀, findCRLF buffer = some crlf ∧
    processHeadRequest .new (buffer.take crlf) = (request₀, true) ∧
    Headers request₀ (buffer.drop (crlf + 2)) request rest

theorem Headers.append {request request' : HttpRequest} {buffer rest : List UInt8}
    (h : Headers request buffer request' rest) (more : List UInt8) :
    Headers request (buffer ++ more) request' (rest ++ more) := by
  induction h with
  | line hpr hcolon hrest ih =>
    rw [← take_append_of_findCRLF hpr more] at hcolon
    rw [← drop_append_of_findCRLF hpr more] at ih
    exact .line (findCRLF_append hpr more) hcolon ih
  | last hpr hcolon =>
    rw [← take_append_of_findCRLF hpr more] at hcolon
    rw [← drop_append_of_findCRLF hpr more]
    exact .last (findCRLF_append hpr more) hcolon

/-- Bytes that arrive later stay in the buffer. -/
theorem Starts.append {buffer rest : List UInt8} {request : HttpRequest}
    (h : Starts buffer request rest) (more : List UInt8) :
    Starts (buffer ++ more) request (rest ++ more) := by
  obtain ⟨crlf, request₀, hcrlf, hline, hheaders⟩ := h
  refine ⟨crlf, request₀, findCRLF_append hcrlf more, ?_, ?_⟩
  · rwa [take_append_of_findCRLF hcrlf]
  · rw [drop_append_of_findCRLF hcrlf]
    exact hheaders.append more

/-- Where the loop ends when the header lines are complete. -/
theorem Headers.loop_eq {beyond : UInt8} {request request' : HttpRequest} {buffer rest : List UInt8}
    (h : Headers request buffer request' rest) {ok : Bool} {fuel : ℕ} {p : Parse}
    (hp : Parse.loop beyond fuel ⟨⟨.CHECK_STATE_HEADER, request⟩, buffer, ok, true⟩ = some p) :
    p = ⟨⟨.CHECK_STATE_OVER, request'⟩, rest, ok, false⟩ := by
  induction h generalizing fuel with
  | line hpr hcolon hrest ih =>
    cases fuel with
    | zero => exact absurd hp (by simp [Parse.loop])
    | succ fuel =>
      simp only [Parse.loop, if_true, Parse.iterate, Parse.header, hpr, hcolon] at hp
      exact ih hp
  | last hpr hcolon =>
    -- A zero byte ends the loop here, another one ends it in the next iteration.
    cases fuel with
    | zero => exact absurd hp (by simp [Parse.loop])
    | succ fuel =>
      simp only [Parse.loop, if_true, Parse.iterate, Parse.header, hpr, hcolon] at hp
      split_ifs at hp with hzero
      · cases fuel with
        | zero => exact absurd hp (by simp [Parse.loop])
        | succ fuel => simpa [Parse.loop] using hp.symm
      · cases fuel with
        | zero => exact absurd hp (by simp [Parse.loop])
        | succ fuel =>
          cases fuel with
          | zero => exact absurd hp (by simp [Parse.loop])
          | succ fuel => simpa [Parse.loop, Parse.iterate] using hp.symm

/-- A fresh parser takes a complete request off the buffer. -/
theorem Starts.parseRequest {buffer rest : List UInt8} {request : HttpRequest}
    (h : Starts buffer request rest) (beyond : UInt8) :
    new.parseRequest beyond buffer = some (⟨.CHECK_STATE_OVER, request⟩, rest, true) := by
  obtain ⟨crlf, request₀, hcrlf, hline, hheaders⟩ := h
  obtain ⟨p, hp⟩ := Parse.exists_loop_length_eq beyond (a := new) (by simp [new]) buffer false
  have hloop := hp
  rw [Parse.loop] at hloop
  simp only [if_true, Parse.iterate, Parse.requestLine, new, hcrlf, hline] at hloop
  obtain rfl := hheaders.loop_eq hloop
  rw [HttpAnalyse.parseRequest, hp]
  rfl

/-- A fresh parser fails on an unfinished line, and leaves it in the buffer. -/
theorem parseRequest_of_findCRLF_eq_none {beyond : UInt8} {buffer : List UInt8}
    (h : findCRLF buffer = none) : new.parseRequest beyond buffer = some (new, buffer, false) := by
  simp [parseRequest, Parse.loop, Parse.iterate, Parse.requestLine, new, h]

end HttpAnalyse

end TinyMuduo
