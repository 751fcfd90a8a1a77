import Mathlib.Data.List.DropRight
import TinyMuduo.Base.LogStream

/-!
# Log records

This file embeds `base/Logging.h` and `base/Logging.cpp`. A record is put together in the buffer of
one stream: the constructor writes the time and the level, the user inserts what he likes, and
`finish` adds the place in the source and a line feed. What does not fit is dropped without notice,
the line feed like anything else. A record ends with its line feed exactly for certain numbers of
bytes that are free when `finish` begins (`Impl.terminated_iff`).

## Main definitions

* `SourceFile`, `Impl`, `Impl.finish`, `Impl.destroy`: a logger and what its destructor hands to
  `g_output`.
* `Impl.Terminated`: the record ends with the line feed of `finish`.
* `Impl.Room`: the condition on the free bytes.

## Main results

* `Impl.terminated_iff`: the record is terminated exactly if there is room.
-/

namespace TinyMuduo

inductive LogLevel
  | TRACE
  | DEBUG
  | INFO
  | WARN
  | ERROR
  | FATAL
  deriving DecidableEq

def LogLevelName : LogLevel → List UInt8
  | .TRACE => bytesOf "TRACE "
  | .DEBUG => bytesOf "DEBUG "
  | .INFO => bytesOf "INFO  "
  | .WARN => bytesOf "WARN  "
  | .ERROR => bytesOf "ERROR "
  | .FATAL => bytesOf "FATAL "

/-- The class `SourceFile`: the name behind the last slash, and its length as an `int`. -/
structure SourceFile where
  data_ : List UInt8
  size_ : ℤ
  size_eq : size_ = castInt data_.length

/-- The constructor. -/
def SourceFile.new (filename : List UInt8) : SourceFile :=
  ⟨(cString filename).rtakeWhile (· != 47), _, rfl⟩

/-- The first `size_` bytes of the name; `SP` takes the length as an unsigned number. -/
def SourceFile.piece (file : SourceFile) : Item := .SP (file.data_.take (file.size_ % 2 ^ 32).toNat)

/-- The fields of `struct tm` that are printed, with the year in full. -/
structure Tm where
  year : ℕ
  month : ℕ
  day : ℕ
  hour : ℕ
  minute : ℕ
  second : ℕ

/-- The formats `%4d` (with spaces) and `%02d`, `%06d` (with zeros). -/
def padded (fill : UInt8) (width n : ℕ) : List UInt8 :=
  List.replicate (width - (Decimal.digits n).length) fill ++ Decimal.digits n

/-- The items of `formatTime`: 17 bytes of the time and 7 bytes of the microseconds. -/
def formatTime (now : Tm) (mirtime : ℕ) : List Item :=
  let t_time := padded 32 4 now.year ++ bytesOf "_" ++ padded 48 2 now.month ++ bytesOf "_" ++
    padded 48 2 now.day ++ bytesOf " " ++ padded 48 2 now.hour ++ bytesOf ":" ++
    padded 48 2 now.minute ++ bytesOf ":" ++ padded 48 2 now.second
  let buf := padded 48 6 (mirtime % (1000 * 1000)) ++ List.replicate 26 0
  [.SP (t_time.take 17), .SP (buf.take 7)]

/-- The classes `Logger` and `Logger::Impl`. -/
structure Impl where
  stream_ : LogStream
  level_ : LogLevel
  line_ : Int32
  basename_ : SourceFile

namespace Impl

variable (stray : UInt8) (l : Impl)

/-- The constructor of `Impl`; `error` is the string of `strerror_tl`. -/
def new (now : Tm) (mirtime : ℕ) (level : LogLevel) (savedErrno : Int32) (error file : List UInt8)
    (line : Int32) : Option Impl :=
  let items := formatTime now mirtime ++ [.char 32, .SP (LogLevelName level)] ++
    if savedErrno ≠ 0 then [.cstring (some error), .cstring (some (bytesOf " (errno=")),
      .int savedErrno, .cstring (some (bytesOf ") "))]
    else []
  (LogStream.new.insertAll stray items).map fun stream => ⟨stream, level, line, .new file⟩

/-- What the user inserts into `stream()`. -/
def insertAll (items : List Item) : Option Impl :=
  (l.stream_.insertAll stray items).map fun stream => { l with stream_ := stream }

/-- The constructors of `Logger`: without a level it is `INFO`, and there may be a function. -/
def logger (now : Tm) (mirtime : ℕ) (file : List UInt8) (line : Int32) (level : Option LogLevel)
    (func : Option (List UInt8)) : Option Impl :=
  (new stray now mirtime (level.getD .INFO) 0 [] file line).bind fun l =>
    match func with
    | some func => l.insertAll stray [.cstring (some func), .char 32]
    | none => some l

/-- What `finish` inserts in front of the line feed. -/
def place : List Item :=
  [.cstring (some (bytesOf "-")), l.basename_.piece, .cstring (some (bytesOf ":")), .int l.line_]

def finish : Option Impl := l.insertAll stray (l.place ++ [.char 10])

/-- The destructor: the record that is handed to `g_output`, and whether the program is aborted. -/
def destroy : Option (List UInt8 × Bool) :=
  (l.finish stray).map fun l => (l.stream_.buffer_.data, l.level_ == .FATAL)

/-- The record ends with the line feed of `finish`. -/
def Terminated : Prop :=
  ∃ l', l.insertAll stray l.place = some l' ∧
    (l.destroy stray).map Prod.fst = some (l'.stream_.buffer_.data ++ [10])

/-- The condition on the free bytes: besides the line feed and one byte more there is room for the
two separators and the name, or for the two separators and not for the name. -/
def Room : Prop :=
  0 ≤ l.basename_.size_ ∧ ((l.basename_.size_ + 3 < l.stream_.buffer_.avail) ∨
    (3 < l.stream_.buffer_.avail ∧ (l.stream_.buffer_.avail : ℤ) ≤ l.basename_.size_ + 1))

/-! ### The free bytes along `finish` -/

/-- The free bytes after a text of `n` bytes. -/
def freeAfter (free n : ℕ) : ℕ := if free ≤ n then free else free - n

private theorem avail_of_data {s t : LogStream} {bytes : List UInt8} {c : Prop} [Decidable c]
    (h : t.buffer_.data = if c then s.buffer_.data else s.buffer_.data ++ bytes) :
    t.buffer_.avail = if c then s.buffer_.avail else s.buffer_.avail - bytes.length := by
  unfold FixedBuffer.avail FixedBuffer.length
  rw [h]
  split_ifs
  · rfl
  · rw [List.length_append]
    omega

theorem exists_append (s : LogStream) (bytes : List UInt8) (h : bytes.length < 2 ^ 31) :
    ∃ t, s.append bytes = some t ∧ t.buffer_.avail = freeAfter s.buffer_.avail bytes.length := by
  obtain ⟨t, ht, -, hdata⟩ := (LogStream.has_append (s := s) bytes).mpr fun hle => by
    rw [castInt_of_lt h]
    omega
  exact ⟨t, ht, avail_of_data hdata⟩

private theorem append_eq_none (s : LogStream) {bytes : List UInt8} (h : castInt bytes.length < 0) :
    s.append bytes = none := by
  have hlen : ¬ bytes.length < 2 ^ 31 := fun hlt => by
    rw [castInt_of_lt hlt] at h
    omega
  have hfits : ¬ (s.buffer_.data ++ bytes).length + 0 ≤ KSmallBuffer := by
    have hsize : KSmallBuffer = 4000 := rfl
    rw [List.length_append]
    omega
  rw [LogStream.append, FixedBuffer.append, if_pos (by omega), FixedBuffer.write, dif_neg hfits]
  rfl

/-- A name whose length is not negative as an `int` is inserted in full. -/
theorem exists_insert_piece (s : LogStream) {file : SourceFile} (h : 0 ≤ file.size_) :
    ∃ t, s.insert stray file.piece = some t ∧
      t.buffer_.avail = freeAfter s.buffer_.avail file.size_.toNat := by
  obtain ⟨hmod, hlo, hhi⟩ := castInt_spec file.data_.length
  rw [← file.size_eq] at hmod hlo hhi
  have hlen : (file.data_.take (file.size_ % 2 ^ 32).toNat).length = file.size_.toNat := by
    rw [List.length_take]
    omega
  obtain ⟨t, ht, havail⟩ := exists_append s (file.data_.take (file.size_ % 2 ^ 32).toNat)
    (by omega)
  rw [hlen] at havail
  exact ⟨t, ht, havail⟩

private theorem insert_piece_eq_none (s : LogStream) {file : SourceFile} (h : file.size_ < 0) :
    s.insert stray file.piece = none := by
  obtain ⟨hmod, hlo, hhi⟩ := castInt_spec file.data_.length
  rw [← file.size_eq] at hmod hlo hhi
  have hlen : (file.data_.take (file.size_ % 2 ^ 32).toNat).length =
      (file.size_ % 2 ^ 32).toNat := by
    rw [List.length_take]
    omega
  refine append_eq_none s ?_
  rw [hlen]
  obtain ⟨hmod', hlo', hhi'⟩ := castInt_spec (file.size_ % 2 ^ 32).toNat
  omega

private theorem exists_insert_int (s : LogStream) (v : Int32) :
    ∃ t n, s.insert stray (.int v) = some t ∧ n ≤ 21 ∧
      t.buffer_.avail = if s.buffer_.avail < 48 then s.buffer_.avail else s.buffer_.avail - n := by
  have hv : v.toInt.natAbs < 2 ^ 64 := by
    have := v.le_toInt
    have := v.toInt_lt
    omega
  obtain ⟨t, ht, -, hdata⟩ := LogStream.has_formatInteger (s := s) hv
  exact ⟨t, _, ht, LogStream.length_integerText_le hv, avail_of_data hdata⟩

/-- Insertions one by one. -/
theorem insertAll_cons (s : LogStream) (item : Item) (items : List Item) :
    s.insertAll stray (item :: items) = (s.insert stray item).bind (·.insertAll stray items) := by
  rw [LogStream.insertAll, List.foldlM_cons]
  rfl

/-- The free bytes in front of the line feed. -/
theorem exists_insertAll_place (hsize : 0 ≤ l.basename_.size_) :
    ∃ t, l.stream_.insertAll stray l.place = some t ∧ (1 < t.buffer_.avail ↔ l.Room) := by
  obtain ⟨s₁, h₁, hfree₁⟩ := exists_append l.stream_ (bytesOf "-") (by decide)
  obtain ⟨s₂, h₂, hfree₂⟩ := exists_insert_piece stray s₁ hsize
  obtain ⟨s₃, h₃, hfree₃⟩ := exists_append s₂ (bytesOf ":") (by decide)
  obtain ⟨s₄, n, h₄, hn, hfree₄⟩ := exists_insert_int stray s₃ l.line_
  refine ⟨s₄, ?_, ?_⟩
  · have hdash : l.stream_.insert stray (.cstring (some (bytesOf "-"))) = some s₁ := h₁
    have hcolon : s₂.insert stray (.cstring (some (bytesOf ":"))) = some s₃ := h₃
    rw [place, insertAll_cons, hdash, Option.bind_some, insertAll_cons, h₂, Option.bind_some,
      insertAll_cons, hcolon, Option.bind_some, insertAll_cons, h₄]
    rfl
  · have hone : (bytesOf "-").length = 1 := rfl
    have hone' : (bytesOf ":").length = 1 := rfl
    simp only [hfree₄, hfree₃, hfree₂, hfree₁, hone, hone', freeAfter, Room, hsize, true_and]
    split_ifs <;> omega

private theorem insertAll_place_eq_none (hsize : l.basename_.size_ < 0) :
    l.stream_.insertAll stray l.place = none := by
  obtain ⟨s₁, h₁, -⟩ := exists_append l.stream_ (bytesOf "-") (by decide)
  have hdash : l.stream_.insert stray (.cstring (some (bytesOf "-"))) = some s₁ := h₁
  rw [place, insertAll_cons, hdash, Option.bind_some, insertAll_cons,
    insert_piece_eq_none stray s₁ hsize]
  rfl

/-- The line feed of `finish` is in the record exactly if there is room for it. -/
theorem terminated_iff_room : l.Terminated stray ↔ l.Room := by
  rcases Int.lt_or_le l.basename_.size_ 0 with hneg | hsize
  · refine iff_of_false ?_ fun h => absurd h.1 (by omega)
    rintro ⟨l', hl', -⟩
    rw [insertAll, insertAll_place_eq_none stray l hneg] at hl'
    exact absurd hl' (by simp)
  · obtain ⟨t, ht, hroom⟩ := exists_insertAll_place stray l hsize
    obtain ⟨t', ht', -, hdata⟩ := (LogStream.has_append (s := t) [10]).mpr fun hle => by
      rw [castInt_of_lt (by decide)]
      exact_mod_cast hle
    have hdestroy : (l.destroy stray).map Prod.fst = some t'.buffer_.data := by
      have hfeed : t.insert stray (.char 10) = some t' := ht'
      rw [destroy, finish, insertAll, LogStream.insertAll_append, ht, Option.bind_some, hfeed]
      rfl
    rw [← hroom]
    constructor
    · rintro ⟨l', hl', hrecord⟩
      rw [insertAll, ht] at hl'
      obtain rfl := Option.some.inj hl'
      rw [hdestroy, Option.some.injEq, hdata] at hrecord
      split_ifs at hrecord with hle
      · exact absurd (congrArg List.length hrecord) (by simp)
      · exact Nat.lt_of_not_le hle
    · intro hlt
      have hfits : ¬ t.buffer_.avail ≤ [(10 : UInt8)].length := Nat.not_le.mpr hlt
      refine ⟨{ l with stream_ := t }, by rw [insertAll, ht]; rfl, ?_⟩
      rw [hdestroy, hdata, if_neg hfits]

/-- Whatever a user inserts, the record ends with the line feed of `finish` exactly if there is room
when the destructor begins. -/
theorem terminated_iff (items : List Item) :
    (∃ l', l.insertAll stray items = some l' ∧ l'.Terminated stray) ↔
      ∃ l', l.insertAll stray items = some l' ∧ l'.Room := by
  simp only [terminated_iff_room]

/-- A record of 31 bytes in front of a text of 3968 bytes: one byte is free when the destructor
begins, and the line feed is dropped. -/
theorem exists_not_terminated :
    ∃ l l', logger 0 ⟨2024, 9, 26, 19, 34, 49⟩ 0 (bytesOf "main.cc") 7 none none = some l ∧
      l.insertAll 0 [.SP (List.replicate 3968 120)] = some l' ∧ ¬ l'.Terminated 0 := by
  have hsome : ((logger 0 ⟨2024, 9, 26, 19, 34, 49⟩ 0 (bytesOf "main.cc") 7 none none).bind
      (·.insertAll 0 [.SP (List.replicate 3968 120)])).map (·.stream_.buffer_.avail) = some 1 := by
    decide +kernel
  obtain ⟨l', hl', havail⟩ := Option.map_eq_some_iff.mp hsome
  obtain ⟨l, hl, hinsert⟩ := Option.bind_eq_some_iff.mp hl'
  refine ⟨l, l', hl, hinsert, fun h => ?_⟩
  obtain ⟨hsize, hroom⟩ := (terminated_iff_room 0 l').mp h
  omega

end Impl

end TinyMuduo
