import Mathlib.Data.List.Forall2
import TinyMuduo.Http.RequestHead
import TinyMuduo.Http.Respond

/-!
# Two cuts of a stream

A stream may arrive in different chunks. This file says what follows from that for the answers of
the server. Each call of `onMessage` makes a parser of its own, so a call that comes to the end of
the buffer in the middle of a request loses what the parser has read, and takes a request line that
has not arrived completely for a wrong one. A call that finds a complete request, or a complete line
that is rejected, decides on it whatever else is in the buffer; it does so once, however many
requests are there. A call that finds no complete line reports an error and takes nothing.

Two cuts of a stream into as many chunks are therefore answered alike when in each place the two
calls find the same bytes, or no complete line, or both decide. Where all calls decide, the number
of chunks is all that matters.

## Main definitions

* `HttpServer.buffers`: what the calls of `onMessage` find in the input buffer.
* `HttpServer.Decided`, `HttpServer.Alike`: the conditions on the calls.
* `HttpServer.SameAnswers`: two cuts lead to the same requests and to the same bytes.

## Main results

* `HttpServer.Decided.onMessage_append`: bytes that arrive later do not change a decision.
* `HttpServer.sameAnswers_of_alike`: when two cuts are answered alike.
* `HttpServer.sameAnswers_of_isCut_iff`: the streams for which the cuts make no difference.
-/

namespace TinyMuduo

open HttpAnalyse

namespace HttpServer

/-- The parser rejects the first line. -/
def rejects (buf : List UInt8) : Bool :=
  (findCRLF buf).any fun crlf => !(processHeadRequest .new (buf.take crlf)).2

/-- A call decides on the bytes that it finds: they start with a complete request, or with a
complete line that is rejected. -/
def Decided (beyond : UInt8) (buf : List UInt8) : Prop :=
  (new.parseRequest beyond buf).any (fun p => p.1.isover) = true ∨ rejects buf = true

instance (beyond : UInt8) (buf : List UInt8) : Decidable (Decided beyond buf) :=
  inferInstanceAs (Decidable (_ ∨ _))

/-- What the parser of a call leaves in the buffer. -/
def leftover (beyond : UInt8) (buf : List UInt8) : List UInt8 :=
  (new.parseRequest beyond buf).elim [] fun p => p.2.1

/-- What the calls of `onMessage` find in the input buffer, which holds `carry` before the first
chunk arrives. -/
def buffers (beyond : UInt8) (carry : List UInt8) : List (List UInt8) → List (List UInt8)
  | [] => []
  | chunk :: chunks =>
    (carry ++ chunk) :: buffers beyond (leftover beyond (carry ++ chunk)) chunks

/-- Two calls find the same bytes, or no complete line, or both decide. -/
def Alike (beyond : UInt8) (buf buf' : List UInt8) : Prop :=
  buf = buf' ∨ findCRLF buf = none ∧ findCRLF buf' = none ∨
    Decided beyond buf ∧ Decided beyond buf'

/-- Whatever `httpCallback_` does, two cuts lead to the same requests and to the same bytes. -/
def SameAnswers (beyond : UInt8) (cut cut' : List (List UInt8)) : Prop :=
  ∀ (httpCallback_ : HttpCallback) (fresh : ℕ → UInt8),
    requests (deliver httpCallback_ fresh beyond cut).log =
        requests (deliver httpCallback_ fresh beyond cut').log ∧
      sentBytes (deliver httpCallback_ fresh beyond cut).log =
        sentBytes (deliver httpCallback_ fresh beyond cut').log

variable {httpCallback_ : HttpCallback} {fresh : ℕ → UInt8} {beyond : UInt8}
variable {buf buf' rest : List UInt8}

/-! ### What a call does -/

private theorem exists_of_rejects (h : rejects buf = true) :
    ∃ crlf request, findCRLF buf = some crlf ∧
      processHeadRequest .new (buf.take crlf) = (request, false) := by
  obtain ⟨crlf, hcrlf, hline⟩ := (Option.any_eq_true _ _).mp h
  exact ⟨crlf, _, hcrlf, Prod.ext rfl (by simpa using hline)⟩

theorem rejects_append (h : rejects buf = true) (more : List UInt8) :
    rejects (buf ++ more) = true := by
  obtain ⟨crlf, request, hcrlf, hline⟩ := exists_of_rejects h
  rw [rejects, findCRLF_append hcrlf, Option.any_some, take_append_of_findCRLF hcrlf, hline]
  rfl

private theorem parseRequest_of_rejects (h : rejects buf = true) (beyond : UInt8) :
    ∃ request, new.parseRequest beyond buf = some (⟨.CHECK_STATE_REQUESTLINE, request⟩, buf,
      false) := by
  obtain ⟨crlf, request, hcrlf, hline⟩ := exists_of_rejects h
  refine ⟨request, ?_⟩
  simp [parseRequest, Parse.loop, iterate_new hcrlf hline]

/-- A call on a line that is rejected reports an error and leaves the line in the buffer. -/
theorem onMessage_of_rejects (h : rejects buf = true) :
    onMessage httpCallback_ fresh beyond buf = (badRequest, some buf) := by
  obtain ⟨request, hparse⟩ := parseRequest_of_rejects h beyond
  rw [onMessage, hparse]
  simp [isover]

theorem leftover_of_rejects (h : rejects buf = true) : leftover beyond buf = buf := by
  obtain ⟨request, hparse⟩ := parseRequest_of_rejects h beyond
  rw [leftover, hparse]
  rfl

theorem leftover_of_starts {request : HttpRequest} (h : Starts buf request rest) :
    leftover beyond buf = rest := by
  rw [leftover, h.parseRequest beyond]
  rfl

theorem Decided.cases (h : Decided beyond buf) :
    (∃ request rest, Starts buf request rest) ∨ rejects buf = true := by
  refine h.imp_left fun hover => ?_
  obtain ⟨⟨a, rest, ok⟩, hparse, hover⟩ := (Option.any_eq_true _ _).mp hover
  exact ⟨_, rest, starts_of_isover hparse hover⟩

/-- A call leaves in the buffer what its parser leaves, when it returns. -/
theorem onMessage_snd (httpCallback_ : HttpCallback) (fresh : ℕ → UInt8) (beyond : UInt8)
    (buf : List UInt8) : (onMessage httpCallback_ fresh beyond buf).2 = none ∨
      (onMessage httpCallback_ fresh beyond buf).2 = some (leftover beyond buf) := by
  unfold onMessage leftover
  rcases new.parseRequest beyond buf with _ | ⟨a, rest, ok⟩
  · exact .inl rfl
  · dsimp only
    split_ifs <;> simp

/-- Bytes that arrive later do not change a decision, and stay in the buffer. -/
theorem Decided.onMessage_append (h : Decided beyond buf) (httpCallback_ : HttpCallback)
    (fresh : ℕ → UInt8) (more : List UInt8) :
    onMessage httpCallback_ fresh beyond (buf ++ more) =
        ((onMessage httpCallback_ fresh beyond buf).1,
          (onMessage httpCallback_ fresh beyond buf).2.map (· ++ more)) ∧
      leftover beyond (buf ++ more) = leftover beyond buf ++ more := by
  rcases h.cases with ⟨request, rest, hstart⟩ | hrejects
  · rw [onMessage_of_starts hstart, onMessage_of_starts (hstart.append more),
      leftover_of_starts hstart, leftover_of_starts (hstart.append more)]
    refine ⟨?_, rfl⟩
    dsimp only
    split_ifs <;> rfl
  · rw [onMessage_of_rejects hrejects, onMessage_of_rejects (rejects_append hrejects more),
      leftover_of_rejects hrejects, leftover_of_rejects (rejects_append hrejects more)]
    exact ⟨rfl, rfl⟩

/-! ### Calls that are alike -/

/-- What two calls do, in front of the rest of the same stream: the same, and what they leave is in
front of the rest of the same stream. -/
structure Agree (httpCallback_ : HttpCallback) (fresh : ℕ → UInt8) (beyond : UInt8)
    (buf rest buf' rest' : List UInt8) : Prop where
  effects : (onMessage httpCallback_ fresh beyond buf).1 =
    (onMessage httpCallback_ fresh beyond buf').1
  returns : (onMessage httpCallback_ fresh beyond buf).2.isSome =
    (onMessage httpCallback_ fresh beyond buf').2.isSome
  stream : leftover beyond buf ++ rest = leftover beyond buf' ++ rest'

/-- A call that decides does so on any longer part of the stream. -/
theorem Decided.agree_append (h : Decided beyond buf) (httpCallback_ : HttpCallback)
    (fresh : ℕ → UInt8) (more rest : List UInt8) :
    Agree httpCallback_ fresh beyond buf (more ++ rest) (buf ++ more) rest := by
  obtain ⟨hcall, hleftover⟩ := h.onMessage_append httpCallback_ fresh more
  exact ⟨by rw [hcall], by rw [hcall, Option.isSome_map], by rw [hleftover, List.append_assoc]⟩

theorem Alike.agree {rest' : List UInt8} (h : Alike beyond buf buf') (httpCallback_ : HttpCallback)
    (fresh : ℕ → UInt8) (hstream : buf ++ rest = buf' ++ rest') :
    Agree httpCallback_ fresh beyond buf rest buf' rest' := by
  rcases h with rfl | ⟨hline, hline'⟩ | ⟨hdecided, hdecided'⟩
  · obtain rfl := List.append_cancel_left hstream
    exact ⟨rfl, rfl, rfl⟩
  · have hcall (buf : List UInt8) (hline : findCRLF buf = none) :
        onMessage httpCallback_ fresh beyond buf = (badRequest, some buf) ∧
          leftover beyond buf = buf := by
      refine ⟨onMessage_of_findCRLF_eq_none hline, ?_⟩
      rw [leftover, parseRequest_of_findCRLF_eq_none hline]
      rfl
    obtain ⟨heffects, hleftover⟩ := hcall buf hline
    obtain ⟨heffects', hleftover'⟩ := hcall buf' hline'
    exact ⟨by rw [heffects, heffects'], by rw [heffects, heffects']; rfl,
      by rw [hleftover, hleftover', hstream]⟩
  · rcases List.append_eq_append_iff.mp hstream with ⟨more, rfl, rfl⟩ | ⟨more, rfl, rfl⟩
    · exact hdecided.agree_append httpCallback_ fresh more _
    · obtain ⟨heffects, hreturns, hrest⟩ := hdecided'.agree_append httpCallback_ fresh more rest
      exact ⟨heffects.symm, hreturns.symm, hrest.symm⟩

private theorem foldl_receive_none (log : List Effect) (cut : List (List UInt8)) :
    cut.foldl (Session.receive httpCallback_ fresh beyond) ⟨none, log⟩ = ⟨none, log⟩ := by
  induction cut with
  | nil => rfl
  | cons chunk cut ih => exact ih

/-- Two cuts of a stream of which the calls are alike have the same effects. -/
theorem foldl_receive_of_alike (httpCallback_ : HttpCallback) (fresh : ℕ → UInt8)
    {carry carry' : List UInt8} {cut cut' : List (List UInt8)}
    (hstream : carry ++ cut.flatten = carry' ++ cut'.flatten)
    (halike : List.Forall₂ (Alike beyond) (buffers beyond carry cut) (buffers beyond carry' cut'))
    (log : List Effect) :
    (cut.foldl (Session.receive httpCallback_ fresh beyond) ⟨some carry, log⟩).log =
      (cut'.foldl (Session.receive httpCallback_ fresh beyond) ⟨some carry', log⟩).log := by
  induction cut generalizing carry carry' cut' log with
  | nil =>
    cases cut' with
    | nil => rfl
    | cons chunk' cut' => cases halike
  | cons chunk cut ih =>
    cases cut' with
    | nil => cases halike
    | cons chunk' cut' =>
      obtain ⟨hcall, hcalls⟩ := List.forall₂_cons.mp halike
      rw [List.flatten_cons, ← List.append_assoc, List.flatten_cons, ← List.append_assoc] at hstream
      obtain ⟨heffects, hreturns, hrest⟩ := hcall.agree httpCallback_ fresh hstream
      rw [List.foldl_cons, List.foldl_cons, receive_some, receive_some, heffects]
      rcases onMessage_snd httpCallback_ fresh beyond (carry ++ chunk) with hnone | hsome
      · have hnone' : (onMessage httpCallback_ fresh beyond (carry' ++ chunk')).2 = none := by
          simpa [hnone] using hreturns
        rw [hnone, hnone', foldl_receive_none, foldl_receive_none]
      · have hsome' : (onMessage httpCallback_ fresh beyond (carry' ++ chunk')).2 =
            some (leftover beyond (carry' ++ chunk')) := by
          rcases onMessage_snd httpCallback_ fresh beyond (carry' ++ chunk') with hnone' | hsome'
          · simp [hsome, hnone'] at hreturns
          · exact hsome'
        rw [hsome, hsome']
        exact ih hrest hcalls _

/-! ### Calls that decide -/

theorem requests_append (log new : List Effect) :
    requests (log ++ new) = requests log ++ requests new :=
  List.filterMap_append

/-- The bytes of an answer: those of the vector of its buffer. -/
theorem onRequest_of_returns {request : HttpRequest}
    (h : (OnRequest httpCallback_ fresh request).2 = true) :
    requests (OnRequest httpCallback_ fresh request).1 = [request] ∧
      (sentBytes (OnRequest httpCallback_ fresh request).1).length = 1032 := by
  cases hbuf : (response httpCallback_ request).appendToBuffer (.new Buffer.kInitialSize) fresh with
  | none =>
    rw [response] at hbuf
    simp [OnRequest, hbuf] at h
  | some buf =>
    refine ⟨?_, by rw [sentBytes_onRequest, hbuf]; exact length_to_string_appendToBuffer hbuf⟩
    rw [response] at hbuf
    simp only [OnRequest, hbuf, requests]
    split_ifs <;> rfl

private theorem returns_defaultHttpCallback (request : HttpRequest) :
    (OnRequest defaultHttpCallback (fun _ => 0) request).2 = true := by
  have hdefault (close : Bool) : ((defaultHttpCallback request (.new close)).appendToBuffer
      (.new Buffer.kInitialSize) fun _ => 0).isSome = true := by
    change ((defaultHttpCallback .new (.new close)).appendToBuffer (.new Buffer.kInitialSize)
      fun _ => 0).isSome = true
    cases close <;> decide +kernel
  obtain ⟨buf, hbuf⟩ := Option.isSome_iff_exists.mp (hdefault (closes request))
  rw [OnRequest, hbuf]

/-- `n` calls handed over requests or reported errors: the bytes tell how many did which. -/
def Counted (n : ℕ) (log : List Effect) : Prop :=
  ∃ errors, n = (requests log).length + errors ∧ (sentBytes log).length =
    1032 * (requests log).length + (sentBytes badRequest).length * errors

theorem Counted.append {n n' : ℕ} {log log' : List Effect} (h : Counted n log)
    (h' : Counted n' log') : Counted (n + n') (log ++ log') := by
  obtain ⟨errors, rfl, hbytes⟩ := h
  obtain ⟨errors', rfl, hbytes'⟩ := h'
  refine ⟨errors + errors', ?_, ?_⟩
  · rw [requests_append, List.length_append]
    omega
  · rw [sentBytes_append, requests_append, List.length_append, List.length_append, hbytes, hbytes',
      Nat.mul_add, Nat.mul_add]
    omega

/-- A call that decides and returns hands over one request or reports one error. -/
theorem Decided.counted (h : Decided beyond buf)
    (hreturns : ∀ request, (OnRequest httpCallback_ fresh request).2 = true) :
    Counted 1 (onMessage httpCallback_ fresh beyond buf).1 ∧
      (onMessage httpCallback_ fresh beyond buf).2 = some (leftover beyond buf) := by
  rcases h.cases with ⟨request, rest, hstart⟩ | hrejects
  · obtain ⟨hrequests, hsent⟩ := onRequest_of_returns (hreturns request)
    rw [onMessage_of_starts hstart, leftover_of_starts hstart, if_pos (hreturns request)]
    exact ⟨⟨0, by simp [hrequests], by simp [hrequests, hsent]⟩, rfl⟩
  · rw [onMessage_of_rejects hrejects, leftover_of_rejects hrejects]
    exact ⟨⟨1, rfl, by simp [requests, badRequest]⟩, rfl⟩

theorem exists_foldl_receive_of_decided
    (hreturns : ∀ request, (OnRequest httpCallback_ fresh request).2 = true)
    {carry : List UInt8} {cut : List (List UInt8)}
    (hdecided : ∀ buf ∈ buffers beyond carry cut, Decided beyond buf) (log : List Effect) :
    ∃ new, (cut.foldl (Session.receive httpCallback_ fresh beyond) ⟨some carry, log⟩).log =
      log ++ new ∧ Counted cut.length new := by
  induction cut generalizing carry log with
  | nil => exact ⟨[], (List.append_nil log).symm, 0, rfl, rfl⟩
  | cons chunk cut ih =>
    rw [buffers, List.forall_mem_cons] at hdecided
    obtain ⟨hcounted, hbuf⟩ := hdecided.1.counted hreturns
    obtain ⟨new, hlog, hcounted'⟩ := ih hdecided.2
      (log ++ (onMessage httpCallback_ fresh beyond (carry ++ chunk)).1)
    refine ⟨(onMessage httpCallback_ fresh beyond (carry ++ chunk)).1 ++ new, ?_, ?_⟩
    · rw [List.foldl_cons, receive_some, hbuf, hlog, List.append_assoc]
    · rw [List.length_cons, Nat.add_comm]
      exact hcounted.append hcounted'

/-- Cuts of which all calls decide are answered alike only if they have as many chunks. -/
theorem length_eq_of_sameAnswers {cut cut' : List (List UInt8)}
    (hdecided : ∀ buf ∈ buffers beyond [] cut, Decided beyond buf)
    (hdecided' : ∀ buf ∈ buffers beyond [] cut', Decided beyond buf)
    (h : SameAnswers beyond cut cut') : cut.length = cut'.length := by
  obtain ⟨new, hlog, errors, hlen, hbytes⟩ :=
    exists_foldl_receive_of_decided returns_defaultHttpCallback hdecided []
  obtain ⟨new', hlog', errors', hlen', hbytes'⟩ :=
    exists_foldl_receive_of_decided returns_defaultHttpCallback hdecided' []
  obtain ⟨hrequests, hsent⟩ := h defaultHttpCallback fun _ => 0
  rw [deliver, deliver, hlog, hlog', List.nil_append, List.nil_append] at hrequests hsent
  rw [hsent, hrequests, hbytes', Nat.add_left_cancel_iff] at hbytes
  have hpos : 0 < (sentBytes badRequest).length :=
    List.length_pos_iff.mpr sentBytes_badRequest_ne_nil
  rw [hlen, hlen', hrequests, Nat.eq_of_mul_eq_mul_left hpos hbytes]

theorem length_buffers (carry : List UInt8) (cut : List (List UInt8)) :
    (buffers beyond carry cut).length = cut.length := by
  induction cut generalizing carry with
  | nil => rfl
  | cons chunk cut ih => rw [buffers, List.length_cons, List.length_cons, ih]

/-! ### The answers to two cuts -/

/-- Two cuts of a stream into as many chunks lead to the same requests and to the same bytes,
whatever `httpCallback_` does, when in each place the calls find the same bytes, or no complete
line, or both decide. For cuts of which all calls decide this is exact: they are answered alike if
and only if they have as many chunks. -/
theorem sameAnswers_of_alike (beyond : UInt8) {cut cut' : List (List UInt8)}
    (hstream : cut.flatten = cut'.flatten) :
    (List.Forall₂ (Alike beyond) (buffers beyond [] cut) (buffers beyond [] cut') →
      SameAnswers beyond cut cut') ∧
    ((∀ buf ∈ buffers beyond [] cut ++ buffers beyond [] cut', Decided beyond buf) →
      (SameAnswers beyond cut cut' ↔ cut.length = cut'.length)) := by
  have hsame (halike : List.Forall₂ (Alike beyond) (buffers beyond [] cut)
      (buffers beyond [] cut')) : SameAnswers beyond cut cut' := fun httpCallback_ fresh => by
    have hlog := foldl_receive_of_alike httpCallback_ fresh (by simpa using hstream) halike []
    exact ⟨congrArg requests hlog, congrArg sentBytes hlog⟩
  refine ⟨hsame, fun hdecided => ?_⟩
  rw [List.forall_mem_append] at hdecided
  refine ⟨length_eq_of_sameAnswers hdecided.1 hdecided.2, fun hlen => hsame ?_⟩
  refine List.forall₂_iff_zip.mpr ⟨by rw [length_buffers, length_buffers, hlen], fun hmem => ?_⟩
  obtain ⟨hbuf, hbuf'⟩ := List.of_mem_zip hmem
  exact .inr (.inr ⟨hdecided.1 _ hbuf, hdecided.2 _ hbuf'⟩)

/-- Two requests arrive in one chunk each, or with the start of the second one in the first chunk:
both are answered, and in the same way. -/
theorem sameAnswers_two_requests :
    let stream := bytesOf "GET / HTTP/1.1\r\n\r\nGET /a HTTP/1.1\r\n\r\n"
    stream.take 18 ≠ stream.take 22 ∧
      SameAnswers 0 [stream.take 18, stream.drop 18] [stream.take 22, stream.drop 22] := by
  intro stream
  refine ⟨by decide, (sameAnswers_of_alike 0 (by simp)).1 ?_⟩
  exact .cons (.inr (.inr (by decide +kernel))) (.cons (.inr (.inr (by decide +kernel))) .nil)

/-- Other cuts are answered alike by chance: a request line that is lost is followed by another one,
which a single call takes for the last header line of the first request. -/
theorem sameAnswers_lost_line :
    SameAnswers 0 [bytesOf "GET / HTTP/1.1\r\n", bytesOf "GET / HTTP/1.1\r\n\r\n"]
      [bytesOf "GET / HTTP/1.1\r\nGET / HTTP/1.1\r\n\r\n"] := by
  intro httpCallback_ fresh
  have hlost : new.parseRequest 0 (bytesOf "GET / HTTP/1.1\r\n") =
      some (⟨.CHECK_STATE_HEADER, rootRequest⟩, [], true) := by decide +kernel
  have hboth : new.parseRequest 0 (bytesOf "GET / HTTP/1.1\r\nGET / HTTP/1.1\r\n\r\n") =
      some (⟨.CHECK_STATE_OVER, rootRequest⟩, [13, 10], true) := by decide +kernel
  simp [deliver, receive_some, onMessage, hlost, parseRequest_root, hboth, isover]

/-- A request that arrives in two chunks, its request line and the empty line, is not handed to
`httpCallback_`; one that arrives in one chunk is. -/
theorem not_sameAnswers_two_chunks :
    [bytesOf "GET / HTTP/1.1\r\n", bytesOf "\r\n"].flatten =
        [bytesOf "GET / HTTP/1.1\r\n\r\n"].flatten ∧
      ¬ SameAnswers 0 [bytesOf "GET / HTTP/1.1\r\n", bytesOf "\r\n"]
        [bytesOf "GET / HTTP/1.1\r\n\r\n"] := by
  refine ⟨by decide, fun h => ?_⟩
  have hlen := congrArg List.length (h defaultHttpCallback fun _ => 0).1
  exact absurd hlen (by decide +kernel)

/-! ### All cuts of a stream -/

/-- The chunks are not empty, and make up the stream. -/
def IsCut (stream : List UInt8) (chunks : List (List UInt8)) : Prop :=
  chunks.flatten = stream ∧ [] ∉ chunks

/-- A first byte that arrives alone is reported as an error, and then forgotten. -/
theorem log_deliver_cut_first (b : UInt8) (rest : List UInt8) :
    (deliver httpCallback_ fresh beyond [[b], rest]).log =
      badRequest ++ (deliver httpCallback_ fresh beyond [b :: rest]).log := by
  have hfirst : onMessage httpCallback_ fresh beyond [b] = (badRequest, some [b]) :=
    onMessage_of_findCRLF_eq_none (by simp [findCRLF])
  simp [deliver, receive_some, hfirst]

/-- A stream of at most one byte has one cut. -/
theorem IsCut.eq_of_length_le_one {stream : List UInt8} {cut : List (List UInt8)}
    (h : IsCut stream cut) (hlen : stream.length ≤ 1) :
    cut = if stream = [] then [] else [stream] := by
  obtain ⟨rfl, hne⟩ := h
  cases cut with
  | nil => simp
  | cons chunk cut =>
    rw [List.mem_cons, not_or] at hne
    have hchunk : 0 < chunk.length := List.length_pos_iff.mpr (Ne.symm hne.1)
    rw [List.flatten_cons, List.length_append] at hlen
    have hrest : cut = [] := by
      refine List.eq_nil_iff_forall_not_mem.mpr fun x hx => hne.2 ?_
      have hflatten : cut.flatten = [] := List.length_eq_zero_iff.mp (by omega)
      exact List.flatten_eq_nil_iff.mp hflatten x hx ▸ hx
    simp [hrest, Ne.symm hne.1]

/-- No stream of two or more bytes is answered alike in all its cuts. -/
theorem sameAnswers_of_isCut_iff (beyond : UInt8) (stream : List UInt8) :
    (∀ cut cut', IsCut stream cut → IsCut stream cut' → SameAnswers beyond cut cut') ↔
      stream.length ≤ 1 := by
  constructor
  · intro h
    match stream with
    | [] | [_] => simp
    | b :: c :: rest =>
      have hsame := h [[b], c :: rest] [b :: c :: rest] (by simp [IsCut]) (by simp [IsCut])
      have hsent := (hsame defaultHttpCallback fun _ => 0).2
      rw [log_deliver_cut_first, sentBytes_append, List.append_left_eq_self] at hsent
      exact absurd hsent sentBytes_badRequest_ne_nil
  · intro hlen cut cut' h h' httpCallback_ fresh
    rw [h.eq_of_length_le_one hlen, h'.eq_of_length_le_one hlen]
    exact ⟨rfl, rfl⟩

end HttpServer

end TinyMuduo
