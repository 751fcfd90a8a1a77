import TinyMuduo.Base.Aslogging

/-!
# The last lines before a stop

At every instant each line that was appended is in the output, or in the hands of the writer, or in
one of the front buffers, in the order of the appends (`AsyncLogging.Accounts`). The writer takes
the front buffers in its section only, and it leaves its loop as soon as it sees that `running_` is
false, without another section. So the lines whose `append` has returned when `stop` is called are
all written if the writer is still in front of its section, or if it has taken them already.

## Main definitions

* `AsyncLogging.StopsDrained`: the steps with short lines and such a call of `stop`.
* `AsyncLogging.Delivered`: the output is the first lines, with all those that were owed.
* `AsyncLogging.Accounts`: where the lines are.

## Main results

* `AsyncLogging.delivered_of_joined`: when `stop` has returned, the lines are delivered.
-/

namespace TinyMuduo

namespace AsyncLogging

/-- The bytes in a list of buffers. -/
def contents (buffers : List BufferPtr) : List UInt8 :=
  buffers.flatMap fun buffer => buffer.elim [] (·.data)

@[simp] theorem contents_nil : contents [] = [] := rfl

@[simp] theorem contents_append (buffers buffers' : List BufferPtr) :
    contents (buffers ++ buffers') = contents buffers ++ contents buffers' :=
  List.flatMap_append

theorem contents_singleton (buffer : BufferPtr) : contents [buffer] = buffer.elim [] (·.data) := by
  simp [contents]

/-- A buffer that is empty where there is one. -/
def Unused (buffer : BufferPtr) : Prop := buffer.elim [] (·.data) = []

variable (s : AsyncLogging)

/-- Lines are shorter than a buffer, and `stop` is called while the writer waits in front of its
section, or after it has taken every line whose `append` has returned. -/
def StopsDrained : Action → Prop
  | .append line _ => line.length < KLargeBuffer
  | .stop => s.place = .waiting ∨ ∀ i ∈ s.returned, i < s.taken
  | _ => True

instance : (a : Action) → Decidable (s.StopsDrained a)
  | .append line _ => inferInstanceAs (Decidable (line.length < KLargeBuffer))
  | .stop => inferInstanceAs (Decidable (s.place = .waiting ∨ ∀ i ∈ s.returned, i < s.taken))
  | .start | .enter | .evaluate | .swap | .write | .restore | .returns _ | .join =>
    .isTrue trivial

/-- The output is the first lines in the order of the appends, once each, and every line whose
`append` had returned when `stop` was called is among them. -/
def Delivered : Prop :=
  ∃ k, s.output = (s.appended.take k).flatten ∧ ∀ i ∈ s.stopping.getD [], i < k

/-- The bytes in the hands of the writer. -/
def unwritten : List UInt8 := if s.place = .writing then contents s.buffersToWrite else []

/-- Where the lines are: those that the writer has taken are in the output or in its hands, the
others in the front buffers. The spare buffers are empty. -/
structure Accounts (s : AsyncLogging) : Prop where
  taken_le : s.taken ≤ s.appended.length
  back : s.output ++ s.unwritten = (s.appended.take s.taken).flatten
  front : contents (s.buffers_ ++ [s.currentBuffer_]) = (s.appended.drop s.taken).flatten
  unused : Unused s.nextBuffer_ ∧ Unused s.newBUffer1 ∧ Unused s.newBUffer2
  returned_lt : ∀ i ∈ s.returned, i < s.appended.length
  owed : ∀ i ∈ s.stopping.getD [], i < s.taken ∨ s.place = .waiting ∧ i < s.appended.length
  exited : s.joined = true → s.place = .exited

variable {s} {s' : AsyncLogging} {a : Action}

private theorem accounts_new : new.Accounts := by
  constructor <;> simp [new, unwritten, contents, Unused, FixedBuffer.new]

/-! ### The buffers -/

private theorem foldlM_eq {buffers : List BufferPtr} {start output : List UInt8}
    (h : (buffers.foldlM (fun output buffer => buffer.map fun b => output ++ b.data) start) =
      some output) : output = start ++ contents buffers := by
  induction buffers generalizing start with
  | nil =>
    rw [contents_nil, List.append_nil]
    exact (Option.some.inj h).symm
  | cons buffer buffers ih =>
    rw [List.foldlM_cons] at h
    obtain ⟨next, hnext, hrest⟩ := Option.bind_eq_some_iff.mp h
    obtain ⟨b, rfl, rfl⟩ := Option.map_eq_some_iff.mp hnext
    rw [ih hrest, List.append_assoc]
    rfl

private theorem writeAll_eq {output : List UInt8} (h : s.writeAll = some output) :
    output = s.output ++ contents s.buffersToWrite :=
  foldlM_eq h

theorem restoreFrom_eq {ptr ptr' : BufferPtr} {buffers buffers' : List BufferPtr}
    (h : restoreFrom ptr buffers = some (ptr', buffers')) (hptr : Unused ptr) : Unused ptr' := by
  unfold restoreFrom at h
  split_ifs at h
  · obtain ⟨rfl, -⟩ := Prod.mk.inj (Option.some.inj h)
    rfl
  · obtain ⟨rfl, -⟩ := Prod.mk.inj (Option.some.inj h)
    exact hptr

/-- The buffer that takes the place of a full one is empty, and so is the spare one that is left. -/
theorem unused_spare (h : Unused s.nextBuffer_) : s.spare.1.data = [] ∧ Unused s.spare.2 := by
  unfold spare
  cases hnext : s.nextBuffer_ with
  | none => exact ⟨rfl, rfl⟩
  | some next =>
    rw [hnext] at h
    exact ⟨h, rfl⟩

/-! ### The steps -/

/-- A line that is shorter than a buffer joins the bytes in the front buffers. -/
theorem front_append {line : List UInt8} {hlen : line.length < 2 ^ 31}
    (hunused : Unused s.nextBuffer_) (hshort : line.length < KLargeBuffer)
    (hm : Moves s (.append line hlen) s') :
    contents (s'.buffers_ ++ [s'.currentBuffer_]) =
      contents (s.buffers_ ++ [s.currentBuffer_]) ++ line := by
  cases hm with
  | append hcurrent hfits happend =>
    have hdata := FixedBuffer.data_append hlen hfits happend
    rw [contents_append, contents_append, contents_singleton, contents_singleton, hcurrent,
      List.append_assoc]
    exact congrArg _ hdata
  | appendSpare hcurrent hfull happend =>
    obtain ⟨hempty, -⟩ := unused_spare hunused
    have hfits : line.length < s.spare.1.avail := by
      rw [FixedBuffer.avail, FixedBuffer.length, hempty]
      exact hshort
    have hdata := FixedBuffer.data_append hlen hfits happend
    rw [contents_append, contents_singleton, hcurrent]
    exact congrArg _ (by rw [hempty, List.nil_append] at hdata; exact hdata)

/-- A line at the end of the lines. -/
theorem take_drop_append (h : s.taken ≤ s.appended.length) (line : List UInt8) :
    (s.appended ++ [line]).take s.taken = s.appended.take s.taken ∧
      ((s.appended ++ [line]).drop s.taken).flatten =
        (s.appended.drop s.taken).flatten ++ line := by
  rw [List.take_append_of_le_length h, List.drop_append_of_le_length h]
  simp

/-- A line joins the lines in the front buffers. -/
theorem Accounts.addLine (h : s.Accounts) (line : List UInt8) {buffers : List BufferPtr}
    {current next : BufferPtr} (hnext : Unused next)
    (hfront : contents (buffers ++ [current]) =
      contents (s.buffers_ ++ [s.currentBuffer_]) ++ line) :
    { s with
      buffers_ := buffers
      currentBuffer_ := current
      nextBuffer_ := next
      appended := s.appended ++ [line] }.Accounts := by
  obtain ⟨htake, hdrop⟩ := take_drop_append h.taken_le line
  have hlen : (s.appended ++ [line]).length = s.appended.length + 1 := List.length_append
  exact
    { taken_le := hlen ▸ Nat.le_succ_of_le h.taken_le
      back := h.back.trans (congrArg List.flatten htake.symm)
      front := by rw [hfront, h.front, hdrop]
      unused := ⟨hnext, h.unused.2⟩
      returned_lt := fun i hi => hlen ▸ Nat.lt_succ_of_lt (h.returned_lt i hi)
      owed := fun i hi => (h.owed i hi).imp_right fun ⟨hplace, hlt⟩ =>
        ⟨hplace, hlen ▸ Nat.lt_succ_of_lt hlt⟩
      exited := h.exited }

/-- The section of the writer takes all the lines. -/
theorem Accounts.swap (h : s.Accounts) (hplace : s.place = .waiting)
    (hwritten : s.buffersToWrite = []) : s.swap.Accounts where
  taken_le := Nat.le_refl _
  back := by
    have hback := h.back
    rw [unwritten, if_neg (by simp [hplace]), List.append_nil] at hback
    change s.output ++ contents (s.buffers_ ++ [s.currentBuffer_]) =
      (s.appended.take s.appended.length).flatten
    rw [hback, h.front, List.take_length, ← List.flatten_append, List.take_append_drop]
  front := by
    change contents (s.buffersToWrite ++ [s.newBUffer1]) =
      (s.appended.drop s.appended.length).flatten
    rw [hwritten, List.nil_append, contents_singleton, List.drop_length]
    exact h.unused.2.1
  unused := by
    obtain ⟨hnext, -, hnew2⟩ := h.unused
    refine ⟨?_, rfl, ?_⟩
    · change Unused (if s.nextBuffer_.isNone then s.newBUffer2 else s.nextBuffer_)
      split_ifs
      · exact hnew2
      · exact hnext
    · change Unused (if s.nextBuffer_.isNone then none else s.newBUffer2)
      split_ifs
      · rfl
      · exact hnew2
  returned_lt := h.returned_lt
  owed i hi := by
    rcases h.owed i hi with hlt | ⟨-, hlt⟩
    · exact .inl (Nat.lt_of_lt_of_le hlt h.taken_le)
    · exact .inl hlt
  exited hjoined := absurd ((h.exited hjoined).symm.trans hplace) (by decide)

/-- The writer leaves a place that is not in front of its section. -/
theorem Accounts.goTo (h : s.Accounts) (hwaiting : s.place ≠ .waiting) (hexited : s.place ≠ .exited)
    {running : Bool} {place : WriterPlace} {ptr1 ptr2 : BufferPtr} {buffers : List BufferPtr}
    {output : List UInt8} (hptr1 : Unused ptr1) (hptr2 : Unused ptr2)
    (hback : output ++ (if place = .writing then contents buffers else []) =
      s.output ++ s.unwritten) :
    { s with
      running_ := running
      place := place
      newBUffer1 := ptr1
      newBUffer2 := ptr2
      buffersToWrite := buffers
      output := output }.Accounts where
  taken_le := h.taken_le
  back := hback.trans h.back
  front := h.front
  unused := ⟨h.unused.1, hptr1, hptr2⟩
  returned_lt := h.returned_lt
  owed i hi := .inl ((h.owed i hi).resolve_right fun hw => hwaiting hw.1)
  exited hjoined := absurd (h.exited hjoined) hexited

theorem Accounts.moves (h : s.Accounts) (howns : s.Owns) (hc : s.StopsDrained a)
    (hm : Moves s a s') : s'.Accounts := by
  cases hm with
  | @append line hlen current b hcurrent hfits happend =>
    have hm : Moves s (.append line hlen) _ := .append hcurrent hfits happend
    exact h.addLine line h.unused.1 (front_append h.unused.1 hc hm)
  | @appendSpare line hlen current b hcurrent hfull happend =>
    have hm : Moves s (.append line hlen) _ := .appendSpare hcurrent hfull happend
    exact h.addLine line (unused_spare h.unused.1).2 (front_append h.unused.1 hc hm)
  | swap hplace => exact h.swap hplace (howns.written (by simp [hplace]) (by simp [hplace]))
  | @write output hplace hwrite =>
    obtain ⟨-, hnew1, hnew2⟩ := h.unused
    refine h.goTo (by simp [hplace]) (by simp [hplace]) hnew1 hnew2 ?_
    rw [writeAll_eq hwrite, unwritten, if_neg (by simp), if_pos hplace, List.append_nil]
  | restore hplace hptr1 hptr2 =>
    obtain ⟨-, hnew1, hnew2⟩ := h.unused
    exact h.goTo (by simp [hplace]) (by simp [hplace]) (restoreFrom_eq hptr1 hnew1)
      (restoreFrom_eq hptr2 hnew2) (by simp [unwritten, hplace])
  | start hplace =>
    exact h.goTo (by simp [hplace]) (by simp [hplace]) h.unused.2.1 h.unused.2.2
      (by simp [unwritten, hplace])
  | enter hplace =>
    exact h.goTo (by simp [hplace]) (by simp [hplace]) rfl rfl (by simp [unwritten, hplace])
  | iterate hplace hrunning =>
    exact h.goTo (by simp [hplace]) (by simp [hplace]) h.unused.2.1 h.unused.2.2
      (by simp [unwritten, hplace])
  | leave hplace hrunning =>
    exact h.goTo (by simp [hplace]) (by simp [hplace]) h.unused.2.1 h.unused.2.2
      (by simp [unwritten, hplace])
  | @returns i hi =>
    refine { h with returned_lt := fun j hj => ?_ }
    rcases List.mem_append.mp hj with hj | hj
    · exact h.returned_lt j hj
    · rwa [List.mem_singleton.mp hj]
  | stop hplace hstopping =>
    refine { h with owed := fun i hi => ?_ }
    rcases hc with hwaiting | htaken
    · exact .inr ⟨hwaiting, h.returned_lt i hi⟩
    · exact .inl (htaken i hi)
  | join hstopping hplace => exact { h with exited := fun _ => hplace }

/-- In every run with lines shorter than a buffer in which `stop` is called while the writer waits
in front of its section, or after it has taken every line whose `append` has returned: when `stop`
has returned, these lines are in the output, once each and in the order of the appends. -/
theorem delivered_of_joined (NDEBUG : Bool)
    (h : Transition.Reaches (Transition.ofStep (step · NDEBUG)) StopsDrained new s)
    (hjoined : s.joined = true) : s.Delivered := by
  obtain ⟨-, hacc⟩ : s.Owns ∧ s.Accounts := by
    refine h.invariant (I := fun s => s.Owns ∧ s.Accounts) ⟨owns_new, accounts_new⟩ ?_
    rintro t a t' ⟨howns, hacc⟩ hc hstep
    have hm := moves_of_step hstep
    exact ⟨howns.moves hm, hacc.moves howns hc hm⟩
  have hexited := hacc.exited hjoined
  have hback := hacc.back
  rw [unwritten, if_neg (by simp [hexited]), List.append_nil] at hback
  exact ⟨s.taken, hback, fun i hi => (hacc.owed i hi).resolve_right (by simp [hexited])⟩

/-- A line is appended, and `stop` is called while the writer waits. -/
theorem delivered_of_stop_waiting : ∃ s : AsyncLogging, s.output = [97] ∧ s.Delivered := by
  obtain ⟨s, hreach, hjoined, houtput⟩ := Transition.Reaches.exists_of_run (C := StopsDrained)
    (s := new) (P := fun s => s.joined = true ∧ s.output = [97]) (step · false)
    [.start, .enter, .evaluate, .append [97] (by decide), .returns 0, .stop, .swap, .write,
      .restore, .evaluate, .join] (by decide +kernel)
  exact ⟨s, houtput, delivered_of_joined false hreach hjoined⟩

/-- A line is appended after the section of the writer, and `stop` is called before the top of the
loop is evaluated: the line is lost. -/
theorem exists_joined_not_delivered :
    ∃ s, Transition.Reaches (Transition.ofStep (step · false)) Transition.anyLabel new s ∧
      s.joined = true ∧ ¬ s.Delivered := by
  obtain ⟨s, hreach, hjoined, houtput, happended, hstopping⟩ := Transition.Reaches.exists_of_run
    (C := Transition.anyLabel) (s := new)
    (P := fun s => s.joined = true ∧ s.output = [] ∧ s.appended = [[97]] ∧ s.stopping = some [0])
    (step · false)
    [.start, .enter, .evaluate, .swap, .append [97] (by decide), .returns 0, .write, .restore,
      .stop, .evaluate, .join] (by decide +kernel)
  refine ⟨s, hreach, hjoined, ?_⟩
  rintro ⟨k, hk, howed⟩
  have hpos : 0 < k := howed 0 (by simp [hstopping])
  rw [houtput, happended, List.take_of_length_le (show 1 ≤ k from hpos)] at hk
  exact absurd hk (by decide)

end AsyncLogging

end TinyMuduo
