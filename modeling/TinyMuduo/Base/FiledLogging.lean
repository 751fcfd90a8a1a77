import TinyMuduo.Base.LogFile
import TinyMuduo.Base.Logging
import TinyMuduo.Base.Rotation
import TinyMuduo.Library.Regroup

/-!
# From the lines to the files

The writer thread of an `AsyncLogging` (`base/Aslogging.cpp`) passes each buffer that it has taken
to a `LogFile`, its local variable `output`, which appends it to the file in use and then may start
another one. Lines are gathered in buffers and buffers in files: both stages regroup what they are
given and cut nothing. So the files contain the first lines, in order, and each line lies in one
file.

The clock is read when the `LogFile` is constructed and once for each buffer; it does not go back.
`fwrite` accepts all bytes that it is given.

## Main definitions

* `FiledLogging`, `FiledLogging.step`: an `AsyncLogging` together with the `LogFile` of its writer.
* `FiledLogging.Regular`: the clock shows a time behind the epoch and does not go back, and lines
  are shorter than a buffer.
* `FiledLogging.Filed`: where the lines are, and in which chunks.

## Main results

* `FiledLogging.regular_of_destroy`: the records of a `Logger` are short enough.
* `FiledLogging.filed_of_reaches`: what the files contain in every run.
-/

namespace TinyMuduo

/-- The texts in a list of buffers. -/
def texts (buffers : List BufferPtr) : List (List UInt8) :=
  buffers.map fun buffer => buffer.elim [] (·.data)

/-- The texts in the hands of the writer. -/
def AsyncLogging.inHand (s : AsyncLogging) : List (List UInt8) :=
  if s.place = .writing then texts s.buffersToWrite else []

/-- An `AsyncLogging` with the local variable `output` of `threadFunc` and the last reading of the
clock. -/
structure FiledLogging where
  log : AsyncLogging
  output : Option LogFile
  clock : ℤ

namespace FiledLogging

/-- Before the writer thread starts. -/
def new : FiledLogging := ⟨.new, none, 0⟩

section Steps

variable (NDEBUG : Bool) (fwrite : List UInt8 → ℕ × Bool) (rollSize : ℤ) (s : FiledLogging)

/-- The loop of `threadFunc` over the buffers: `output.append` for each one, with the readings of
the clock. -/
def appendBuffers : LogFile → List BufferPtr → List ℤ → Option LogFile
  | f, [], [] => some f
  | f, some buffer :: buffers, now :: readings =>
    (f.append_unlock fwrite buffer.data now).bind fun f => appendBuffers f buffers readings
  | _, _, _ => none

/-- What the threads do: the two steps of the writer that use the files, with the readings of the
clock, and the others. -/
inductive Action
  | enter (now : ℤ)
  | write (readings : List ℤ)
  | log (a : AsyncLogging.Action)

def step : Action → Option FiledLogging
  | .enter now =>
    (s.log.step NDEBUG .enter).map fun log => ⟨log, some (LogFile.new rollSize 3 1024 now), now⟩
  | .write readings =>
    (s.log.step NDEBUG .write).bind fun log =>
      s.output.bind fun output =>
        (appendBuffers fwrite output s.log.buffersToWrite readings).map fun output =>
          ⟨log, some output, readings.getLast?.getD s.clock⟩
  | .log a =>
    if a matches .enter | .write then none
    else (s.log.step NDEBUG a).map fun log => { s with log }

/-- The clock shows a time behind the epoch and does not go back, and lines are shorter than a
buffer. -/
def Regular : Action → Prop
  | .enter now => 0 < now
  | .write readings => (s.clock :: readings).Pairwise (· ≤ ·)
  | .log (.append line _) => line.length < KLargeBuffer
  | .log _ => True

instance (a : Action) : Decidable (s.Regular a) := by
  unfold Regular
  split <;> infer_instance

/-- The records that a `Logger` hands to `g_output` are shorter than a buffer: they come out of the
small buffer of its stream. -/
theorem regular_of_destroy {stray : UInt8} {l : Impl} {record : List UInt8} {aborts : Bool}
    (h : l.destroy stray = some (record, aborts)) :
    ∃ hlen, s.Regular (.log (.append record hlen)) := by
  obtain ⟨l', -, hrecord⟩ := Option.map_eq_some_iff.mp h
  obtain ⟨rfl, -⟩ := Prod.mk.inj hrecord
  have hle : l'.stream_.buffer_.data.length ≤ KSmallBuffer := l'.stream_.buffer_.length_le
  have hsmall : l'.stream_.buffer_.data.length < KLargeBuffer := hle.trans_lt (by decide)
  exact ⟨hsmall.trans (by decide), hsmall⟩

end Steps

/-- What holds of the calls of `output.append`: they hold the lines taken, with what is in the hands
of the writer. -/
structure Calls (s : FiledLogging) (calls : List (List UInt8 × ℤ)) : Prop where
  lines : Regroups (calls.map Prod.fst ++ s.log.inHand) (s.log.appended.take s.log.taken)
  short : ∀ call ∈ calls, call.1.length ≤ KLargeBuffer

/-- Where the lines are, and in which chunks: those that were taken are in the calls and in the
hands of the writer, the others in the front buffers. The spare buffers are empty. -/
structure Filed (s : FiledLogging) (rollSize : ℤ) : Prop where
  taken_le : s.log.taken ≤ s.log.appended.length
  fresh : s.log.place = .unstarted ∨ s.log.place = .entry → s.log.taken = 0
  output : ∀ f, s.output = some f → ∃ calls, f.Sound rollSize s.clock calls ∧ s.Calls calls
  front : Regroups (texts (s.log.buffers_ ++ [s.log.currentBuffer_]))
    (s.log.appended.drop s.log.taken)
  unused : AsyncLogging.Unused s.log.nextBuffer_ ∧ AsyncLogging.Unused s.log.newBUffer1 ∧
    AsyncLogging.Unused s.log.newBUffer2

private theorem filed_new (rollSize : ℤ) : new.Filed rollSize where
  taken_le := le_rfl
  fresh _ := rfl
  output := by simp [new]
  front := .single []
  unused := ⟨rfl, rfl, rfl⟩

variable {NDEBUG : Bool} {fwrite : List UInt8 → ℕ × Bool} {rollSize : ℤ} {s t : FiledLogging}

/-! ### The files -/

private theorem length_le_of_mem_texts {buffers : List BufferPtr} {text : List UInt8}
    (h : text ∈ texts buffers) : text.length ≤ KLargeBuffer := by
  obtain ⟨buffer, -, rfl⟩ := List.mem_map.mp h
  cases buffer with
  | none => exact Nat.zero_le _
  | some buffer => exact buffer.length_le

/-- The loop over the buffers ends only with a reading of the clock for each buffer, none of which
is null. -/
theorem full_of_appendBuffers {f f' : LogFile} {buffers : List BufferPtr} {readings : List ℤ}
    (h : appendBuffers fwrite f buffers readings = some f') :
    none ∉ buffers ∧ readings.length = buffers.length := by
  induction buffers generalizing f readings with
  | nil => cases readings <;> simp_all [appendBuffers]
  | cons buffer buffers ih =>
    cases buffer with
    | none => simp [appendBuffers] at h
    | some buffer =>
      cases readings with
      | nil => simp [appendBuffers] at h
      | cons now readings =>
        obtain ⟨f₁, -, hrest⟩ := Option.bind_eq_some_iff.mp h
        obtain ⟨hfull, hlen⟩ := ih hrest
        exact ⟨by simpa using hfull, by simpa using hlen⟩

/-- The texts of the buffers are appended to the files. -/
theorem exists_appendBuffers (hfwrite : ∀ bytes, (fwrite bytes).1 = bytes.length)
    {f : LogFile} {buffers : List BufferPtr} {readings : List ℤ} {now : ℤ}
    {calls : List (List UInt8 × ℤ)} (h : f.Sound rollSize now calls) (hfull : none ∉ buffers)
    (hlen : readings.length = buffers.length) (hclock : (now :: readings).Pairwise (· ≤ ·)) :
    ∃ f', appendBuffers fwrite f buffers readings = some f' ∧
      f'.Sound rollSize (readings.getLast?.getD now) (calls ++ (texts buffers).zip readings) := by
  induction buffers generalizing f readings now calls with
  | nil =>
    obtain rfl := List.length_eq_zero_iff.mp hlen
    exact ⟨f, rfl, by simpa [texts] using h⟩
  | cons buffer buffers ih =>
    obtain ⟨hne, hothers⟩ := not_or.mp (List.mem_cons.not.mp hfull)
    obtain ⟨buffer, rfl⟩ := Option.ne_none_iff_exists'.mp (Ne.symm hne)
    obtain ⟨now', readings, rfl⟩ := List.exists_cons_of_length_eq_add_one hlen
    obtain ⟨hnow, hrest⟩ := List.pairwise_cons.mp hclock
    obtain ⟨f₁, hf₁, hsound⟩ := h.exists_append hfwrite buffer.data (hnow now' List.mem_cons_self)
    obtain ⟨f', hf', hsound'⟩ := ih hsound hothers (Nat.succ.inj hlen) hrest
    refine ⟨f', ?_, ?_⟩
    · rw [appendBuffers, hf₁, Option.bind_some, hf']
    · rw [List.getLast?_cons, Option.getD_some]
      simpa [texts] using hsound'

/-- The contents of the files are the texts of the calls, regrouped. -/
theorem regroups_contents {f : LogFile} {calls : List (List UInt8 × ℤ)}
    (h : f.Rolled rollSize calls) :
    Regroups (f.instances.map (·.contents)) (calls.map Prod.fst) := by
  refine ⟨f.instances.map (·.lines.map Prod.fst), ?_, ?_⟩
  · rw [List.map_map]
    exact List.map_congr_left fun file hfile => (h.contents_eq file hfile).symm
  · rw [← h.complete, List.flatMap_def, List.map_flatten, List.map_map]
    rfl

/-! ### The steps -/

/-- A step that moves no line. -/
theorem Filed.keep (h : s.Filed rollSize) {log : AsyncLogging}
    (hlines : log.taken = s.log.taken ∧ log.appended = s.log.appended)
    (hbuffers : log.buffers_ = s.log.buffers_ ∧ log.currentBuffer_ = s.log.currentBuffer_ ∧
      log.nextBuffer_ = s.log.nextBuffer_)
    (hspare : AsyncLogging.Unused log.newBUffer1 ∧ AsyncLogging.Unused log.newBUffer2)
    (hhand : log.inHand = s.log.inHand)
    (hfresh : log.place = .unstarted ∨ log.place = .entry →
      s.log.place = .unstarted ∨ s.log.place = .entry) :
    Filed { s with log } rollSize := by
  obtain ⟨htaken, happended⟩ := hlines
  obtain ⟨hfull, hcurrent, hnext⟩ := hbuffers
  refine
    { taken_le := by rw [htaken, happended]; exact h.taken_le
      fresh := fun hplace => htaken.trans (h.fresh (hfresh hplace))
      output := fun f hf => ?_
      front := by rw [hfull, hcurrent, happended, htaken]; exact h.front
      unused := ⟨hnext ▸ h.unused.1, hspare⟩ }
  obtain ⟨calls, hsound, hcalls⟩ := h.output f hf
  exact ⟨calls, hsound, by rw [hhand, happended, htaken]; exact hcalls.lines, hcalls.short⟩

/-- A line joins the last text, or begins a new one. -/
theorem Filed.addLine (h : s.Filed rollSize) {line : List UInt8} {buffers : List BufferPtr}
    {current next : BufferPtr} (hnext : AsyncLogging.Unused next)
    (hfront : Regroups (texts (buffers ++ [current])) (s.log.appended.drop s.log.taken ++ [line])) :
    Filed { s with
      log := { s.log with
        buffers_ := buffers
        currentBuffer_ := current
        nextBuffer_ := next
        appended := s.log.appended ++ [line] } } rollSize := by
  refine
    { taken_le := h.taken_le.trans (by simp)
      fresh := h.fresh
      output := fun f hf => ?_
      front := by
        rw [List.drop_append_of_le_length h.taken_le]
        exact hfront
      unused := ⟨hnext, h.unused.2⟩ }
  obtain ⟨calls, hsound, hcalls⟩ := h.output f hf
  have hlines := hcalls.lines
  rw [← (AsyncLogging.take_drop_append h.taken_le line).1] at hlines
  exact ⟨calls, hsound, hlines, hcalls.short⟩

theorem texts_append (buffers buffers' : List BufferPtr) :
    texts (buffers ++ buffers') = texts buffers ++ texts buffers' :=
  List.map_append

/-- The section of the writer takes all the texts. -/
theorem Filed.swap (h : s.Filed rollSize) (hplace : s.log.place = .waiting)
    (hwritten : s.log.buffersToWrite = []) : Filed { s with log := s.log.swap } rollSize := by
  have hspare (buffer buffer' : BufferPtr) (hb : AsyncLogging.Unused buffer)
      (hb' : AsyncLogging.Unused buffer') (c : Prop) [Decidable c] :
      AsyncLogging.Unused (if c then buffer else buffer') := by
    split_ifs
    · exact hb
    · exact hb'
  obtain ⟨hnext, hnew1, hnew2⟩ := h.unused
  refine
    { taken_le := le_rfl
      fresh := by simp [AsyncLogging.swap]
      output := fun f hf => ?_
      front := ?_
      unused := ⟨hspare _ _ hnew2 hnext _, rfl, hspare none _ rfl hnew2 _⟩ }
  · obtain ⟨calls, hsound, hcalls⟩ := h.output f hf
    have hlines := hcalls.lines
    rw [AsyncLogging.inHand, if_neg (by simp [hplace]), List.append_nil] at hlines
    refine ⟨calls, hsound, ?_, hcalls.short⟩
    have hall := hlines.append h.front
    rw [List.take_append_drop] at hall
    change Regroups (_ ++ texts _) (s.log.appended.take s.log.appended.length)
    rwa [List.take_length]
  · change Regroups (texts (s.log.buffersToWrite ++ [s.log.newBUffer1]))
      (s.log.appended.drop s.log.appended.length)
    rw [hwritten, List.nil_append, List.drop_length]
    have htext : texts [s.log.newBUffer1] = [[]] := congrArg (fun text => [text]) hnew1
    rw [htext]
    exact .single []

/-- A line that is appended. -/
theorem Filed.append (h : s.Filed rollSize) {line : List UInt8} {hlen : line.length < 2 ^ 31}
    (hshort : line.length < KLargeBuffer) {log : AsyncLogging}
    (hm : s.log.Moves (.append line hlen) log) : Filed { s with log } rollSize := by
  have hfront := h.front
  rw [texts_append] at hfront
  cases hm with
  | append hcurrent hfits happend =>
    have hdata := FixedBuffer.data_append hlen hfits happend
    refine h.addLine h.unused.1 ?_
    rw [texts_append]
    rw [hcurrent] at hfront
    have hline := hfront.extend line
    simpa [texts, hdata] using hline
  | appendSpare hcurrent hfull happend =>
    obtain ⟨hempty, hspare⟩ := AsyncLogging.unused_spare h.unused.1
    have hfits : line.length < s.log.spare.1.avail := by
      rw [FixedBuffer.avail, FixedBuffer.length, hempty]
      exact hshort
    have hdata := FixedBuffer.data_append hlen hfits happend
    rw [hempty, List.nil_append] at hdata
    refine h.addLine hspare ?_
    rw [hcurrent] at hfront
    have hline := hfront.append (.single [line])
    simpa [texts, hdata] using hline

/-- The steps that do not use the files. -/
theorem Filed.moves (h : s.Filed rollSize) (howns : s.log.Owns) {a : AsyncLogging.Action}
    (ha : a ≠ .enter ∧ a ≠ .write) (hshort : s.Regular (.log a)) {log : AsyncLogging}
    (hm : s.log.Moves a log) : Filed { s with log } rollSize := by
  obtain ⟨hnext, hnew1, hnew2⟩ := h.unused
  cases a with
  | enter => exact absurd rfl ha.1
  | write => exact absurd rfl ha.2
  | append line hlen => exact h.append hshort hm
  | swap =>
    cases hm with
    | swap hplace => exact h.swap hplace (howns.written (by simp [hplace]) (by simp [hplace]))
  | restore =>
    cases hm with
    | restore hplace hptr1 hptr2 =>
      exact h.keep ⟨rfl, rfl⟩ ⟨rfl, rfl, rfl⟩
        ⟨AsyncLogging.restoreFrom_eq hptr1 hnew1, AsyncLogging.restoreFrom_eq hptr2 hnew2⟩
        (by simp [AsyncLogging.inHand, hplace]) (by simp)
  | start =>
    cases hm with
    | start hplace =>
      exact h.keep ⟨rfl, rfl⟩ ⟨rfl, rfl, rfl⟩ ⟨hnew1, hnew2⟩
        (by simp [AsyncLogging.inHand, hplace]) fun _ => .inl hplace
  | evaluate =>
    cases hm with
    | iterate hplace hrunning | leave hplace hrunning =>
      exact h.keep ⟨rfl, rfl⟩ ⟨rfl, rfl, rfl⟩ ⟨hnew1, hnew2⟩
        (by simp [AsyncLogging.inHand, hplace]) (by simp)
  | _ =>
    cases hm
    exact h.keep ⟨rfl, rfl⟩ ⟨rfl, rfl, rfl⟩ ⟨hnew1, hnew2⟩ rfl id

/-- The constructor of the files, before any line was taken. -/
theorem Filed.enter (h : s.Filed rollSize) {now : ℤ} (hnow : 0 < now)
    (hs : s.step NDEBUG fwrite rollSize (.enter now) = some t) : t.Filed rollSize := by
  obtain ⟨log, hlog, rfl⟩ := Option.map_eq_some_iff.mp hs
  cases AsyncLogging.moves_of_step hlog with
  | enter hplace =>
    have htaken := h.fresh (.inr hplace)
    refine
      { taken_le := h.taken_le
        fresh := by simp
        output := ?_
        front := h.front
        unused := ⟨h.unused.1, rfl, rfl⟩ }
    intro f hf
    obtain rfl := Option.some.inj hf
    refine ⟨[], LogFile.sound_new hnow, ?_, by simp⟩
    simpa [AsyncLogging.inHand, htaken] using Regroups.nil

/-- The writer passes on what it has in its hands. -/
theorem Filed.write (hfwrite : ∀ bytes, (fwrite bytes).1 = bytes.length) (h : s.Filed rollSize)
    {readings : List ℤ} (hclock : (s.clock :: readings).Pairwise (· ≤ ·))
    (hs : s.step NDEBUG fwrite rollSize (.write readings) = some t) : t.Filed rollSize := by
  obtain ⟨log, hlog, hs⟩ := Option.bind_eq_some_iff.mp hs
  obtain ⟨output, houtput, hs⟩ := Option.bind_eq_some_iff.mp hs
  obtain ⟨f, hf, rfl⟩ := Option.map_eq_some_iff.mp hs
  obtain ⟨hfull, hlen⟩ := full_of_appendBuffers hf
  obtain ⟨calls, hsound, hcalls⟩ := h.output output houtput
  obtain ⟨f', hf', hsound'⟩ := exists_appendBuffers hfwrite hsound hfull hlen hclock
  obtain rfl := Option.some.inj (hf.symm.trans hf')
  cases AsyncLogging.moves_of_step hlog with
  | write hplace hwrite =>
    refine
      { taken_le := h.taken_le
        fresh := by simp
        output := ?_
        front := h.front
        unused := h.unused }
    intro g hg
    obtain rfl := Option.some.inj hg
    have hlines := hcalls.lines
    rw [AsyncLogging.inHand, if_pos hplace] at hlines
    have htexts : (texts s.log.buffersToWrite).length ≤ readings.length := by
      rw [texts, List.length_map, hlen]
    refine ⟨_, hsound', ?_, List.forall_mem_append.mpr ⟨hcalls.short, fun call hcall => ?_⟩⟩
    · rw [List.map_append, List.map_fst_zip htexts]
      simpa [AsyncLogging.inHand] using hlines
    · exact length_le_of_mem_texts (List.of_mem_zip hcall).1

/-- Every step is a step of the `AsyncLogging`. -/
theorem exists_log_step {a : Action} (hs : s.step NDEBUG fwrite rollSize a = some t) :
    ∃ b, s.log.step NDEBUG b = some t.log := by
  cases a with
  | enter now =>
    obtain ⟨log, hlog, rfl⟩ := Option.map_eq_some_iff.mp hs
    exact ⟨_, hlog⟩
  | write readings =>
    obtain ⟨log, hlog, hs⟩ := Option.bind_eq_some_iff.mp hs
    obtain ⟨output, -, hs⟩ := Option.bind_eq_some_iff.mp hs
    obtain ⟨f, -, rfl⟩ := Option.map_eq_some_iff.mp hs
    exact ⟨_, hlog⟩
  | log a =>
    obtain ⟨-, hs⟩ := Option.ite_none_left_eq_some.mp hs
    obtain ⟨log, hlog, rfl⟩ := Option.map_eq_some_iff.mp hs
    exact ⟨a, hlog⟩

theorem Filed.step (hfwrite : ∀ bytes, (fwrite bytes).1 = bytes.length) (h : s.Filed rollSize)
    (howns : s.log.Owns) {a : Action} (ha : s.Regular a)
    (hs : s.step NDEBUG fwrite rollSize a = some t) : t.Filed rollSize := by
  cases a with
  | enter now => exact h.enter ha hs
  | write readings => exact h.write hfwrite ha hs
  | log a =>
    obtain ⟨hne, hs⟩ := Option.ite_none_left_eq_some.mp hs
    obtain ⟨log, hlog, rfl⟩ := Option.map_eq_some_iff.mp hs
    refine h.moves howns ?_ ha (AsyncLogging.moves_of_step hlog)
    constructor <;> rintro rfl <;> exact hne rfl

/-! ### Runs -/

/-- The calls hold the first lines: all that were taken, outside the writing of a batch. -/
theorem Calls.exists_take {calls : List (List UInt8 × ℤ)} (h : s.Calls calls)
    (htaken : s.log.taken ≤ s.log.appended.length) :
    ∃ k ≤ s.log.appended.length, Regroups (calls.map Prod.fst) (s.log.appended.take k) ∧
      (s.log.place ≠ .writing → k = s.log.taken) := by
  obtain ⟨front, back, hlines, hfront, hback⟩ := h.lines.split
  have hlen : s.log.taken = front.length + back.length := by
    have hlen := congrArg List.length hlines
    rwa [List.length_take, Nat.min_eq_left htaken, List.length_append] at hlen
  have htake : front = s.log.appended.take front.length := by
    have hprefix := congrArg (List.take front.length) hlines
    rw [List.take_take, List.take_left, Nat.min_eq_left (by omega)] at hprefix
    exact hprefix.symm
  refine ⟨front.length, by omega, htake ▸ hfront, fun hplace => ?_⟩
  rw [AsyncLogging.inHand, if_neg hplace] at hback
  rw [hlen, hback.eq_nil, List.length_nil, Nat.add_zero]

/-- The last line of a file is the text of a buffer. -/
theorem lastLength_le {f : LogFile} {calls : List (List UInt8 × ℤ)} (h : f.Rolled rollSize calls)
    (hshort : ∀ call ∈ calls, call.1.length ≤ KLargeBuffer) {file : AppendFile}
    (hfile : file ∈ f.instances) : file.lastLength ≤ KLargeBuffer := by
  unfold AppendFile.lastLength
  cases hlast : file.lines.getLast? with
  | none => exact Nat.zero_le _
  | some line =>
    refine hshort line ?_
    rw [← h.complete]
    exact List.mem_flatMap.mpr ⟨file, hfile, List.mem_of_getLast? hlast⟩

/-- What the files contain, in every run with lines shorter than a buffer in which the clock does
not go back: the first lines that were appended, in order, and each line lies in one file; outside
the writing of a batch these are all the lines that the writer has taken. The files were created in
different seconds, and each one is at most one buffer longer than the roll size, or than what was
written in the second of its creation. A batch without null pointers can be written. -/
theorem filed_of_reaches (hfwrite : ∀ bytes, (fwrite bytes).1 = bytes.length)
    (h : Transition.Reaches (Transition.ofStep fun s => step NDEBUG fwrite rollSize s) Regular
      new s) {f : LogFile} (hf : s.output = some f) :
    (∃ k ≤ s.log.appended.length,
      Regroups (f.instances.map (·.contents)) (s.log.appended.take k) ∧
        (s.log.place ≠ .writing → k = s.log.taken)) ∧
    (f.instances.map (·.created)).Pairwise (· < ·) ∧
    (∀ file ∈ f.instances, (file.contents.length : ℤ) ≤
      max rollSize (file.bytesAt file.created) + KLargeBuffer) ∧
    ∀ readings : List ℤ, s.log.place = .writing → none ∉ s.log.buffersToWrite →
      readings.length = s.log.buffersToWrite.length → (s.clock :: readings).Pairwise (· ≤ ·) →
      (s.step NDEBUG fwrite rollSize (.write readings)).isSome = true := by
  obtain ⟨-, hfiled⟩ : s.log.Owns ∧ s.Filed rollSize := by
    refine h.invariant (I := fun s => s.log.Owns ∧ s.Filed rollSize)
      ⟨AsyncLogging.owns_new, filed_new rollSize⟩ ?_
    rintro u a v ⟨howns, hu⟩ ha hstep
    obtain ⟨b, hb⟩ := exists_log_step hstep
    exact ⟨howns.moves (AsyncLogging.moves_of_step hb), hu.step hfwrite howns ha hstep⟩
  obtain ⟨calls, hsound, hcalls⟩ := hfiled.output f hf
  have hrolled := hsound.rolled
  refine ⟨?_, hrolled.increasing, fun file hfile => ?_, fun readings hplace hfull hlen hclock => ?_⟩
  · obtain ⟨k, hk, hlines, htaken⟩ := hcalls.exists_take hfiled.taken_le
    exact ⟨k, hk, (regroups_contents hrolled).trans hlines, htaken⟩
  · have hlast := lastLength_le hrolled hcalls.short hfile
    have hlength := hrolled.length_le file hfile
    omega
  · obtain ⟨f', hf', -⟩ := exists_appendBuffers hfwrite hsound hfull hlen hclock
    simp [step, AsyncLogging.step, hplace, AsyncLogging.writeAll_of_full hfull, hf, hf']

/-- A line of one byte and one of two, in one buffer: the file has both, and becomes too large. -/
theorem filed_of_reaches_two_lines : ∃ (s : FiledLogging) (f : LogFile), s.output = some f ∧
    f.instances.map (·.contents) = [[97, 98, 99], []] ∧
      ∃ k, Regroups (f.instances.map (·.contents)) (s.log.appended.take k) := by
  obtain ⟨s, hreach, hplace, hcontents⟩ := Transition.Reaches.exists_of_run (C := Regular)
    (s := new) (P := fun s => s.log.place = .restoring ∧
      s.output.map (fun f => f.instances.map (·.contents)) = some [[97, 98, 99], []])
    (step false (fun bytes => (bytes.length, false)) 1)
    [.log .start, .enter 1, .log (.append [97] (by decide)), .log .evaluate,
      .log (.append [98, 99] (by decide)), .log .swap, .write [2]] (by decide +kernel)
  obtain ⟨f, hf, hcontents⟩ := Option.map_eq_some_iff.mp hcontents
  obtain ⟨⟨k, -, hk, -⟩, -⟩ := filed_of_reaches (fun _ => rfl) hreach hf
  exact ⟨s, f, hf, hcontents, k, hk⟩

end FiledLogging

end TinyMuduo
