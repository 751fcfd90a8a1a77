import TinyMuduo.Base.LogStream
import TinyMuduo.Library.Transition

/-!
# Asynchronous logging

This file embeds `base/Aslogging.h` and `base/Aslogging.cpp`. The producers append lines to
`currentBuffer_`, full buffers go to `buffers_`, and the writer thread takes all of them at once and
passes them to `LogFile::append`. A `std::unique_ptr` to a buffer is an option. The sections under
`mutex_` are single steps; the wait of the writer ends at any time, by a notification or by the
timeout. An action that has no result ends the process: an assertion fails, a null pointer is used,
or `back()` is called on an empty vector. With `NDEBUG` assertions are not checked.

The lines in the order of the appends, the calls of `append` that have returned, and the numbers of
sections of the writer and of lines that it has taken are recorded in the state and read by nothing.

## Main definitions

* `AsyncLogging`, `AsyncLogging.step`: the members, the local variables of `threadFunc`, and what
  the threads do.
* `AsyncLogging.Asserted`: what `threadFunc` asserts at the top of its loop.
* `AsyncLogging.Sound`: at an evaluation of the top of the loop with `running_` true the assertions
  hold, and at a call of `append` there is a current buffer.

## Main results

* `AsyncLogging.sound_iff`: in every run, a step is sound exactly if it belongs to the first
  iteration of the writer.
-/

namespace TinyMuduo

/-- A `std::unique_ptr` to a `FixedBuffer<KLargeBuffer>`. -/
abbrev BufferPtr := Option (FixedBuffer KLargeBuffer)

/-- Where the writer thread stands. -/
inductive WriterPlace
  | unstarted
  | entry
  | top
  | waiting
  | writing
  | restoring
  | exited
  deriving DecidableEq

/-- The class `AsyncLogging` and the local variables of `threadFunc`. -/
structure AsyncLogging where
  running_ : Bool
  currentBuffer_ : BufferPtr
  nextBuffer_ : BufferPtr
  buffers_ : List BufferPtr
  place : WriterPlace
  newBUffer1 : BufferPtr
  newBUffer2 : BufferPtr
  buffersToWrite : List BufferPtr
  output : List UInt8
  stopping : Option (List ℕ)
  joined : Bool
  appended : List (List UInt8)
  returned : List ℕ
  sections : ℕ
  taken : ℕ

namespace AsyncLogging

/-- The constructor. -/
def new : AsyncLogging where
  running_ := false
  currentBuffer_ := some .new
  nextBuffer_ := some .new
  buffers_ := []
  place := .unstarted
  newBUffer1 := none
  newBUffer2 := none
  buffersToWrite := []
  output := []
  stopping := none
  joined := false
  appended := []
  returned := []
  sections := 0
  taken := 0

variable (s : AsyncLogging)

/-- The buffer that takes the place of a full one, and the spare one that is left. -/
def spare : FixedBuffer KLargeBuffer × BufferPtr :=
  match s.nextBuffer_ with
  | some next => (next, none)
  | none => (.new, none)

/-- The section of `append`. -/
def append (line : List UInt8) : Option AsyncLogging :=
  s.currentBuffer_.bind fun current =>
    if line.length < current.avail then
      (current.append line).map fun b =>
        { s with currentBuffer_ := some b, appended := s.appended ++ [line] }
    else
      (s.spare.1.append line).map fun b =>
        { s with
          buffers_ := s.buffers_ ++ [some current]
          currentBuffer_ := some b
          nextBuffer_ := s.spare.2
          appended := s.appended ++ [line] }

/-- What `threadFunc` asserts at the top of its loop. -/
def Asserted : Prop :=
  s.newBUffer1.any (·.length == 0) = true ∧ s.newBUffer2.any (·.length == 0) = true ∧
    s.buffersToWrite = []

instance : Decidable s.Asserted := by
  unfold Asserted
  infer_instance

/-- The section of `threadFunc`: `buffersToWrite` is empty before the swap. -/
def swap : AsyncLogging :=
  { s with
    place := .writing
    buffersToWrite := s.buffers_ ++ [s.currentBuffer_]
    buffers_ := s.buffersToWrite
    currentBuffer_ := s.newBUffer1
    newBUffer1 := none
    nextBuffer_ := if s.nextBuffer_.isNone then s.newBUffer2 else s.nextBuffer_
    newBUffer2 := if s.nextBuffer_.isNone then none else s.newBUffer2
    sections := s.sections + 1
    taken := s.appended.length }

/-- The loop that writes the buffers. -/
def writeAll : Option (List UInt8) :=
  s.buffersToWrite.foldlM (fun output buffer => buffer.map fun b => output ++ b.data) s.output

/-- How one of the two local buffers is restored. The last buffer is moved into the pointer, and
`reset()` is called on the pointer, which becomes null again. -/
def restoreFrom (ptr : BufferPtr) (buffers : List BufferPtr) :
    Option (BufferPtr × List BufferPtr) :=
  if ptr.isNone then
    if buffers = [] then none else some (none, buffers.dropLast)
  else some (ptr, buffers)

/-- The end of an iteration. -/
def restore : Option AsyncLogging :=
  (restoreFrom s.newBUffer1 s.buffersToWrite).bind fun (ptr1, buffers) =>
    (restoreFrom s.newBUffer2 buffers).map fun (ptr2, _) =>
      { s with newBUffer1 := ptr1, newBUffer2 := ptr2, buffersToWrite := [], place := .top }

/-- What the threads do: the writer thread enters `threadFunc`, evaluates the condition of its loop,
has its section, writes, and restores its buffers; a line is appended, a call of `append` returns,
and `stop` is called and returns. A line has a length that is an `int`. -/
inductive Action
  | start
  | enter
  | evaluate
  | swap
  | write
  | restore
  | append (line : List UInt8) (h : line.length < 2 ^ 31)
  | returns (i : ℕ)
  | stop
  | join

def step (NDEBUG : Bool) : Action → Option AsyncLogging
  | .start =>
    if s.place = .unstarted then some { s with running_ := true, place := .entry } else none
  | .enter =>
    if s.place = .entry ∧ (s.running_ = true ∨ NDEBUG = true) then
      some { s with newBUffer1 := some .new, newBUffer2 := some .new, place := .top }
    else none
  | .evaluate =>
    if s.place = .top then
      if s.running_ then
        if s.Asserted ∨ NDEBUG = true then some { s with place := .waiting } else none
      else some { s with place := .exited }
    else none
  | .swap => if s.place = .waiting then some s.swap else none
  | .write =>
    if s.place = .writing then
      s.writeAll.map fun output => { s with output, place := .restoring }
    else none
  | .restore => if s.place = .restoring then s.restore else none
  | .append line _ => s.append line
  | .returns i =>
    if i < s.appended.length then some { s with returned := s.returned ++ [i] } else none
  | .stop =>
    if s.place ≠ .unstarted ∧ s.stopping = none then
      some { s with running_ := false, stopping := some s.returned }
    else none
  | .join =>
    if s.stopping.isSome ∧ s.place = .exited then some { s with joined := true } else none

/-! ### What a step can do -/

/-- The transitions, one constructor for each branch of the code. -/
inductive Moves : Action → AsyncLogging → Prop
  | start (hplace : s.place = .unstarted) :
      Moves .start { s with running_ := true, place := .entry }
  | enter (hplace : s.place = .entry) :
      Moves .enter { s with newBUffer1 := some .new, newBUffer2 := some .new, place := .top }
  | iterate (hplace : s.place = .top) (hrunning : s.running_ = true) :
      Moves .evaluate { s with place := .waiting }
  | leave (hplace : s.place = .top) (hrunning : s.running_ = false) :
      Moves .evaluate { s with place := .exited }
  | swap (hplace : s.place = .waiting) : Moves .swap s.swap
  | write {output} (hplace : s.place = .writing) (hwrite : s.writeAll = some output) :
      Moves .write { s with output := output, place := .restoring }
  | restore {ptr1 ptr2 buffers buffers'} (hplace : s.place = .restoring)
      (hptr1 : restoreFrom s.newBUffer1 s.buffersToWrite = some (ptr1, buffers))
      (hptr2 : restoreFrom s.newBUffer2 buffers = some (ptr2, buffers')) :
      Moves .restore
        { s with newBUffer1 := ptr1, newBUffer2 := ptr2, buffersToWrite := [], place := .top }
  | append {line h current b} (hcurrent : s.currentBuffer_ = some current)
      (hfits : line.length < current.avail) (happend : current.append line = some b) :
      Moves (.append line h)
        { s with currentBuffer_ := some b, appended := s.appended ++ [line] }
  | appendSpare {line h current b} (hcurrent : s.currentBuffer_ = some current)
      (hfull : current.avail ≤ line.length) (happend : s.spare.1.append line = some b) :
      Moves (.append line h)
        { s with
          buffers_ := s.buffers_ ++ [some current]
          currentBuffer_ := some b
          nextBuffer_ := s.spare.2
          appended := s.appended ++ [line] }
  | returns {i} (hi : i < s.appended.length) :
      Moves (.returns i) { s with returned := s.returned ++ [i] }
  | stop (hplace : s.place ≠ .unstarted) (hstopping : s.stopping = none) :
      Moves .stop { s with running_ := false, stopping := some s.returned }
  | join (hstopping : s.stopping.isSome = true) (hplace : s.place = .exited) :
      Moves .join { s with joined := true }

variable {s} {s' : AsyncLogging} {a : Action} {NDEBUG : Bool}

theorem moves_append {line : List UInt8} {hlen : line.length < 2 ^ 31}
    (h : s.append line = some s') : Moves s (.append line hlen) s' := by
  obtain ⟨current, hcurrent, h⟩ := Option.bind_eq_some_iff.mp h
  split_ifs at h with hfits
  · obtain ⟨b, happend, rfl⟩ := Option.map_eq_some_iff.mp h
    exact .append hcurrent hfits happend
  · obtain ⟨b, happend, rfl⟩ := Option.map_eq_some_iff.mp h
    exact .appendSpare hcurrent (Nat.le_of_not_lt hfits) happend

theorem moves_of_step (h : s.step NDEBUG a = some s') : Moves s a s' := by
  cases a with
  | append line hlen => exact moves_append h
  | evaluate =>
    simp only [step] at h
    split_ifs at h with hplace hrunning
    · obtain rfl := Option.some.inj h
      exact .iterate hplace hrunning
    · obtain rfl := Option.some.inj h
      exact .leave hplace (by simpa using hrunning)
  | write =>
    simp only [step] at h
    split_ifs at h with hplace
    obtain ⟨output, hwrite, rfl⟩ := Option.map_eq_some_iff.mp h
    exact .write hplace hwrite
  | restore =>
    simp only [step] at h
    split_ifs at h with hplace
    obtain ⟨⟨ptr1, buffers⟩, hptr1, h⟩ := Option.bind_eq_some_iff.mp h
    obtain ⟨⟨ptr2, buffers'⟩, hptr2, rfl⟩ := Option.map_eq_some_iff.mp h
    exact .restore hplace hptr1 hptr2
  | start =>
    simp only [step] at h
    split_ifs at h with hplace
    obtain rfl := Option.some.inj h
    exact .start hplace
  | enter =>
    simp only [step] at h
    split_ifs at h with henter
    obtain rfl := Option.some.inj h
    exact .enter henter.1
  | swap =>
    simp only [step] at h
    split_ifs at h with hplace
    obtain rfl := Option.some.inj h
    exact .swap hplace
  | returns i =>
    simp only [step] at h
    split_ifs at h with hi
    obtain rfl := Option.some.inj h
    exact .returns hi
  | stop =>
    simp only [step] at h
    split_ifs at h with hstop
    obtain rfl := Option.some.inj h
    exact .stop hstop.1 hstop.2
  | join =>
    simp only [step] at h
    split_ifs at h with hjoin
    obtain rfl := Option.some.inj h
    exact .join hjoin.1 hjoin.2

/-- A pointer that is null is null again after it was restored. -/
theorem restoreFrom_none {buffers : List BufferPtr} {ptr : BufferPtr} {buffers' : List BufferPtr}
    (h : restoreFrom none buffers = some (ptr, buffers')) : ptr = none := by
  simp only [restoreFrom, Option.isNone_none, if_true] at h
  split_ifs at h
  exact (Prod.mk.inj (Option.some.inj h)).1.symm

/-! ### The asserted invariant -/

section Sound

variable (s)

/-- At an evaluation of the top of the loop with `running_` true the assertions hold, and at a call
of `append` there is a current buffer. -/
def Sound : Action → Prop
  | .evaluate => s.place = .top → s.running_ = true → s.Asserted
  | .append _ _ => s.currentBuffer_.isSome = true
  | _ => True

/-- The step belongs to the first iteration: the top of the loop is evaluated with `running_` true
before the first section of the writer, and `append` is called before the second one. -/
def InFirstIteration : Action → Prop
  | .evaluate => s.place = .top → s.running_ = true → s.sections = 0
  | .append _ _ => s.sections ≤ 1
  | _ => True

end Sound

/-- Where the buffers are. After the first section the writer never has a first spare buffer. -/
structure Owns (s : AsyncLogging) : Prop where
  starting : s.place = .unstarted ∨ s.place = .entry → s.sections = 0
  asserted : s.place = .top → s.sections = 0 → s.Asserted
  waiting : s.place = .waiting → s.sections = 0 → s.newBUffer1.isSome = true
  ending : s.place = .writing ∨ s.place = .restoring → 0 < s.sections
  spent : 0 < s.sections → s.newBUffer1 = none
  current : s.currentBuffer_.isSome = true ↔ s.sections ≤ 1
  written : s.place ≠ .writing → s.place ≠ .restoring → s.buffersToWrite = []

theorem owns_new : new.Owns := by
  constructor <;> simp [new]

theorem Asserted.isSome (h : s.Asserted) : s.newBUffer1.isSome = true := by
  obtain ⟨b, hb, -⟩ := (Option.any_eq_true _ _).mp h.1
  exact Option.isSome_iff_exists.mpr ⟨b, hb⟩

/-- The section moves the first spare buffer to the front. -/
theorem Owns.swap (h : s.Owns) (hplace : s.place = .waiting) : s.swap.Owns where
  starting := by simp [AsyncLogging.swap]
  asserted := by simp [AsyncLogging.swap]
  waiting := by simp [AsyncLogging.swap]
  ending _ := Nat.succ_pos s.sections
  spent _ := rfl
  current := by
    change s.newBUffer1.isSome = true ↔ s.sections + 1 ≤ 1
    rcases Nat.eq_zero_or_pos s.sections with hzero | hpos
    · exact iff_of_true (h.waiting hplace hzero) (by omega)
    · exact iff_of_false (by simp [h.spent hpos]) (by omega)
  written := by simp [AsyncLogging.swap]

theorem Owns.moves (h : s.Owns) (hm : Moves s a s') : s'.Owns := by
  cases hm with
  | swap hplace => exact h.swap hplace
  | restore hplace hptr1 hptr2 =>
    have hpos := h.ending (.inr hplace)
    rw [h.spent hpos] at hptr1
    obtain rfl := restoreFrom_none hptr1
    exact ⟨by simp, fun _ hzero => absurd hzero hpos.ne', by simp, by simp, fun _ => rfl, h.current,
      fun _ _ => rfl⟩
  | iterate hplace hrunning =>
    exact ⟨by simp, by simp, fun _ hzero => (h.asserted hplace hzero).isSome, by simp, h.spent,
      h.current, fun _ _ => h.written (by simp [hplace]) (by simp [hplace])⟩
  | enter hplace =>
    have hzero := h.starting (.inr hplace)
    have hempty := h.written (by simp [hplace]) (by simp [hplace])
    exact ⟨by simp, fun _ _ => ⟨rfl, rfl, hempty⟩, by simp, by simp,
      fun hpos => absurd hzero hpos.ne', h.current, fun _ _ => hempty⟩
  | start hplace =>
    exact ⟨fun _ => h.starting (.inl hplace), by simp, by simp, by simp, h.spent, h.current,
      fun _ _ => h.written (by simp [hplace]) (by simp [hplace])⟩
  | leave hplace hrunning =>
    exact ⟨by simp, by simp, by simp, by simp, h.spent, h.current,
      fun _ _ => h.written (by simp [hplace]) (by simp [hplace])⟩
  | write hplace hwrite =>
    exact ⟨by simp, by simp, by simp, fun _ => h.ending (.inl hplace), h.spent, h.current, by simp⟩
  | append hcurrent hfits happend =>
    exact { h with current := iff_of_true rfl (h.current.mp (by simp [hcurrent])) }
  | appendSpare hcurrent hfull happend =>
    exact { h with current := iff_of_true rfl (h.current.mp (by simp [hcurrent])) }
  | returns hi => exact { h with }
  | stop hplace hstopping => exact { h with }
  | join hstopping hplace => exact { h with }

/-- In every run, a step is sound exactly if it belongs to the first iteration of the writer. -/
theorem sound_iff (NDEBUG : Bool)
    (h : Transition.Reaches (Transition.ofStep (step · NDEBUG)) Transition.anyLabel new s)
    (a : Action) : s.Sound a ↔ s.InFirstIteration a := by
  have howns : s.Owns := h.invariant owns_new fun _ _ _ hinv _ hstep =>
    hinv.moves (moves_of_step hstep)
  cases a with
  | evaluate =>
    constructor
    · intro hsound hplace hrunning
      by_contra hne
      have hnone := howns.spent (Nat.pos_of_ne_zero hne)
      exact absurd (hsound hplace hrunning).isSome (by simp [hnone])
    · exact fun hfirst hplace hrunning => howns.asserted hplace (hfirst hplace hrunning)
  | append line hlen => exact howns.current
  | _ => exact Iff.rfl

/-- The first evaluation of the top of the loop, after a line was appended. -/
theorem sound_iff_first : ∃ s : AsyncLogging, s.place = .top ∧ s.running_ = true ∧
    (s.Sound .evaluate ↔ s.InFirstIteration .evaluate) := by
  obtain ⟨s, hreach, hplace, hrunning⟩ := Transition.Reaches.exists_of_run
    (C := Transition.anyLabel) (s := new) (P := fun s => s.place = .top ∧ s.running_ = true)
    (step · false) [.append [97] (by decide), .start, .enter] (by decide +kernel)
  exact ⟨s, hplace, hrunning, sound_iff false hreach .evaluate⟩

/-- The second evaluation of the top of the loop finds a null pointer. Where assertions are not
checked, the second section of the writer leaves no current buffer. -/
theorem exists_not_sound :
    (∃ s, Transition.Reaches (Transition.ofStep (step · false)) Transition.anyLabel new s ∧
      ¬ s.Sound .evaluate) ∧
    ∃ s, Transition.Reaches (Transition.ofStep (step · true)) Transition.anyLabel new s ∧
      ¬ s.Sound (.append [97] (by decide)) := by
  constructor
  · obtain ⟨s, hreach, hplace, hrunning, hnot⟩ := Transition.Reaches.exists_of_run
      (C := Transition.anyLabel) (s := new)
      (P := fun s => s.place = .top ∧ s.running_ = true ∧ ¬ s.Asserted) (step · false)
      [.start, .enter, .evaluate, .swap, .write, .restore] (by decide +kernel)
    exact ⟨s, hreach, fun hsound => hnot (hsound hplace hrunning)⟩
  · obtain ⟨s, hreach, hnone⟩ := Transition.Reaches.exists_of_run
      (C := Transition.anyLabel) (s := new) (P := fun s => s.currentBuffer_.isNone = true)
      (step · true) [.start, .enter, .evaluate, .swap, .write, .restore, .evaluate, .swap]
      (by decide +kernel)
    refine ⟨s, hreach, fun hsound => ?_⟩
    rw [Option.isNone_iff_eq_none] at hnone
    exact absurd hsound (by simp [Sound, hnone])

end AsyncLogging

end TinyMuduo
