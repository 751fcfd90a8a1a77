import TinyMuduo.Base.Drain

/-!
# One iteration of the writer

The section of the writer takes the full buffers and the current one, and puts its two spare buffers
in their places; the producers go on with these. Where the assertions hold at the top of the loop,
nothing is lost or reordered by this rotation, however many lines are appended before and after the
section: what the writer writes, followed by what is then in the front buffers, is what was in the
front buffers, followed by the new lines. The pointers that are null are refilled from the buffers
that were written, of which there are enough: the spare buffer of the producers is used up only
when a full buffer has been put aside.

## Main definitions

* `AsyncLogging.Iteration`: the actions of one iteration, between which lines are appended.
* `AsyncLogging.Stocked`: the buffers of the producers other than the current one.
* `AsyncLogging.Ahead`: what holds while some of the actions of an iteration are still to come.

## Main results

* `AsyncLogging.conserves`: an iteration conserves the bytes and their order.
-/

namespace TinyMuduo

namespace AsyncLogging

/-- The line that an action appends. -/
def Action.line : Action → Option (List UInt8)
  | .append line _ => some line
  | _ => none

/-- The writer goes once through its loop. Before, between and after its actions, lines are appended
that are shorter than a buffer. -/
structure Iteration (as : List Action) : Prop where
  writer : as.filter (·.line.isNone) = [.evaluate, .swap, .write, .restore]
  short : ∀ line ∈ as.filterMap Action.line, line.length < KLargeBuffer

/-- The full buffers are not null, the spare one is empty, and it is null only if there is a full
one. -/
structure Stocked (s : AsyncLogging) : Prop where
  full : none ∉ s.buffers_
  unused : Unused s.nextBuffer_
  spent : s.nextBuffer_ = none → s.buffers_ ≠ []

variable (s : AsyncLogging)

/-- The buffers that were taken suffice to restore those that are null. -/
def Suffices : Prop :=
  s.newBUffer1 = none ∧ s.buffersToWrite ≠ [] ∧
    (s.newBUffer2 = none → s.buffersToWrite.dropLast ≠ [])

/-- What holds when the given actions of the writer are still to come. -/
inductive Ahead : List Action → Prop
  | top (hplace : s.place = .top) (hrunning : s.running_ = true) (hasserted : s.Asserted) :
      Ahead [.evaluate, .swap, .write, .restore]
  | waiting (hplace : s.place = .waiting) (hasserted : s.Asserted) :
      Ahead [.swap, .write, .restore]
  | writing (hplace : s.place = .writing) (hfull : none ∉ s.buffersToWrite)
      (hsuffices : s.Suffices) : Ahead [.write, .restore]
  | restoring (hplace : s.place = .restoring) (hsuffices : s.Suffices) : Ahead [.restore]
  | done (hplace : s.place = .top) : Ahead []

/-- All bytes: those in the output, those in the hands of the writer, and those in the front
buffers. -/
def bytes : List UInt8 :=
  s.output ++ (s.unwritten ++ contents (s.buffers_ ++ [s.currentBuffer_]))

variable {s} {t : AsyncLogging} {a : Action} {as : List Action}

/-! ### The producers -/

/-- A full buffer is put aside. -/
theorem Stocked.addBuffer (h : s.Stocked) (current : FixedBuffer KLargeBuffer) {buffer : BufferPtr}
    {lines : List (List UInt8)} :
    { s with
      buffers_ := s.buffers_ ++ [some current]
      currentBuffer_ := buffer
      nextBuffer_ := s.spare.2
      appended := lines }.Stocked where
  full := by simpa using h.full
  unused := (unused_spare h.unused).2
  spent _ := by simp

/-- What the producers change does not matter to the writer. -/
theorem Ahead.append {buffers : List BufferPtr} {current next : BufferPtr}
    {lines : List (List UInt8)} (h : s.Ahead as) :
    { s with
      buffers_ := buffers
      currentBuffer_ := current
      nextBuffer_ := next
      appended := lines }.Ahead as := by
  cases h with
  | top hplace hrunning hasserted => exact .top hplace hrunning hasserted
  | waiting hplace hasserted => exact .waiting hplace hasserted
  | writing hplace hfull hsuffices => exact .writing hplace hfull hsuffices
  | restoring hplace hsuffices => exact .restoring hplace hsuffices
  | done hplace => exact .done hplace

/-- A call of `append` with a line that is shorter than a buffer. -/
theorem exists_append {line : List UInt8} (hlen : line.length < 2 ^ 31)
    (hshort : line.length < KLargeBuffer) (hcurrent : s.currentBuffer_.isSome = true)
    (hstocked : s.Stocked) (h : s.Ahead as) :
    ∃ t, s.append line = some t ∧ t.currentBuffer_.isSome = true ∧ t.Stocked ∧ t.Ahead as ∧
      t.bytes = s.bytes ++ line ∧ t.output = s.output := by
  have hbytes {t : AsyncLogging} (ht : s.append line = some t) (houtput : t.output = s.output)
      (hunwritten : t.unwritten = s.unwritten) : t.bytes = s.bytes ++ line := by
    have hm : Moves s (.append line hlen) t := moves_append ht
    rw [bytes, bytes, front_append hstocked.unused hshort hm, houtput, hunwritten,
      List.append_assoc, List.append_assoc]
  obtain ⟨current, hcurrent⟩ := Option.isSome_iff_exists.mp hcurrent
  rcases Nat.lt_or_ge line.length current.avail with hfits | hfull
  · obtain ⟨b, hb⟩ := FixedBuffer.exists_append hlen hfits
    have ht : s.append line =
        some { s with currentBuffer_ := some b, appended := s.appended ++ [line] } := by
      rw [append, hcurrent, Option.bind_some, if_pos hfits, hb]
      rfl
    exact ⟨_, ht, rfl, ⟨hstocked.full, hstocked.unused, hstocked.spent⟩, h.append,
      hbytes ht rfl rfl, rfl⟩
  · have hfits : line.length < s.spare.1.avail := by
      rw [FixedBuffer.avail, FixedBuffer.length, (unused_spare hstocked.unused).1]
      exact hshort
    obtain ⟨b, hb⟩ := FixedBuffer.exists_append hlen hfits
    have ht : s.append line =
        some { s with
          buffers_ := s.buffers_ ++ [some current]
          currentBuffer_ := some b
          nextBuffer_ := s.spare.2
          appended := s.appended ++ [line] } := by
      rw [append, hcurrent, Option.bind_some, if_neg (Nat.not_lt_of_le hfull), hb]
      rfl
    exact ⟨_, ht, rfl, hstocked.addBuffer current, h.append, hbytes ht rfl rfl, rfl⟩

/-! ### The writer -/

theorem writeAll_of_full (h : none ∉ s.buffersToWrite) :
    s.writeAll = some (s.output ++ contents s.buffersToWrite) := by
  have hall (buffers : List BufferPtr) (start : List UInt8) (h : none ∉ buffers) :
      buffers.foldlM (fun output buffer => buffer.map fun b => output ++ b.data) start =
        some (start ++ contents buffers) := by
    induction buffers generalizing start with
    | nil => rw [contents_nil, List.append_nil]; rfl
    | cons buffer buffers ih =>
      obtain ⟨hne, hrest⟩ := not_or.mp (mt List.mem_cons.mpr h)
      obtain ⟨b, rfl⟩ := Option.ne_none_iff_exists'.mp (Ne.symm hne)
      rw [List.foldlM_cons]
      refine (ih (start ++ b.data) hrest).trans ?_
      rw [List.append_assoc]
      rfl
  exact hall _ _ h

theorem Asserted.unused (h : s.Asserted) : Unused s.newBUffer1 ∧ Unused s.newBUffer2 := by
  obtain ⟨b1, hb1, hlen1⟩ := (Option.any_eq_true _ _).mp h.1
  obtain ⟨b2, hb2, hlen2⟩ := (Option.any_eq_true _ _).mp h.2.1
  rw [hb1, hb2]
  exact ⟨List.eq_nil_of_length_eq_zero (eq_of_beq hlen1),
    List.eq_nil_of_length_eq_zero (eq_of_beq hlen2)⟩

theorem Asserted.newBUffer2_ne_none (h : s.Asserted) : s.newBUffer2 ≠ none := by
  obtain ⟨b, hb, -⟩ := (Option.any_eq_true _ _).mp h.2.1
  rw [hb]
  exact Option.some_ne_none b

/-- The section of the writer leaves the producers a current buffer and a spare one. -/
theorem stocked_swap (hstocked : s.Stocked) (hasserted : s.Asserted) : s.swap.Stocked where
  full := by
    change none ∉ s.buffersToWrite
    rw [hasserted.2.2]
    exact List.not_mem_nil
  unused := by
    change Unused (if s.nextBuffer_.isNone then s.newBUffer2 else s.nextBuffer_)
    split_ifs
    · exact hasserted.unused.2
    · exact hstocked.unused
  spent hnone := by
    change (if s.nextBuffer_.isNone then s.newBUffer2 else s.nextBuffer_) = none at hnone
    split_ifs at hnone with hnext
    · exact absurd hnone hasserted.newBUffer2_ne_none
    · rw [hnone] at hnext
      exact absurd rfl hnext

/-- The section of the writer takes enough buffers. -/
theorem suffices_swap (hstocked : s.Stocked) (hasserted : s.Asserted) : s.swap.Suffices := by
  refine ⟨rfl, List.append_ne_nil_of_right_ne_nil _ (List.cons_ne_nil _ _), fun hnone => ?_⟩
  change (s.buffers_ ++ [s.currentBuffer_]).dropLast ≠ []
  rw [List.dropLast_concat]
  refine hstocked.spent ?_
  change (if s.nextBuffer_.isNone then none else s.newBUffer2) = none at hnone
  by_contra hnext
  rw [if_neg (by simpa using hnext)] at hnone
  exact hasserted.newBUffer2_ne_none hnone

/-- The section of the writer moves the bytes of the front buffers into the hands of the writer. -/
theorem bytes_swap (hplace : s.place = .waiting) (hasserted : s.Asserted) :
    s.swap.bytes = s.bytes := by
  have hfront : contents (s.swap.buffers_ ++ [s.swap.currentBuffer_]) = [] := by
    change contents (s.buffersToWrite ++ [s.newBUffer1]) = []
    rw [hasserted.2.2, List.nil_append, contents_singleton]
    exact hasserted.unused.1
  have hback : s.unwritten = [] := if_neg (by simp [hplace])
  rw [bytes, bytes, hfront, hback, List.append_nil, List.nil_append]
  rfl

/-- Both pointers are restored, and no buffer is popped from an empty vector. -/
theorem Suffices.exists_restore (h : s.Suffices) : ∃ t, s.restore = some t ∧ t.place = .top ∧
    t.output = s.output ∧ t.buffers_ = s.buffers_ ∧ t.currentBuffer_ = s.currentBuffer_ ∧
    t.nextBuffer_ = s.nextBuffer_ := by
  obtain ⟨hnew1, hne, hdrop⟩ := h
  have hfirst : restoreFrom s.newBUffer1 s.buffersToWrite =
      some (none, s.buffersToWrite.dropLast) := by
    rw [restoreFrom, hnew1, if_pos Option.isNone_none, if_neg hne]
  have hsecond : ∃ ptr buffers,
      restoreFrom s.newBUffer2 s.buffersToWrite.dropLast = some (ptr, buffers) := by
    rw [restoreFrom]
    split_ifs with hnone hempty
    · exact absurd hempty (hdrop (by simpa using hnone))
    · exact ⟨_, _, rfl⟩
    · exact ⟨_, _, rfl⟩
  obtain ⟨ptr, buffers, hsecond⟩ := hsecond
  refine ⟨{ s with newBUffer1 := none, newBUffer2 := ptr, buffersToWrite := [], place := .top }, ?_,
    rfl, rfl, rfl, rfl, rfl⟩
  simp only [restore, hfirst, Option.bind_some, hsecond, Option.map_some]

/-- Each action of the writer has a result. -/
theorem Ahead.exists_step (NDEBUG : Bool) (hcurrent : s.currentBuffer_.isSome = true)
    (hstocked : s.Stocked) (h : s.Ahead (a :: as)) :
    ∃ t, s.step NDEBUG a = some t ∧ t.currentBuffer_.isSome = true ∧ t.Stocked ∧ t.Ahead as ∧
      t.bytes = s.bytes ∧ s.output <+: t.output := by
  cases h with
  | top hplace hrunning hasserted =>
    refine ⟨{ s with place := .waiting }, ?_, hcurrent, { hstocked with },
      .waiting rfl hasserted, ?_, List.prefix_refl _⟩
    · rw [step, if_pos hplace, if_pos hrunning, if_pos (.inl hasserted)]
    · simp [bytes, unwritten, hplace]
  | waiting hplace hasserted =>
    have hnew : s.swap.currentBuffer_.isSome = true := hasserted.isSome
    have hfull : none ∉ s.swap.buffersToWrite := by
      change none ∉ s.buffers_ ++ [s.currentBuffer_]
      obtain ⟨current, hcurrent⟩ := Option.isSome_iff_exists.mp hcurrent
      simpa [hcurrent] using hstocked.full
    refine ⟨s.swap, ?_, hnew, stocked_swap hstocked hasserted,
      .writing rfl hfull (suffices_swap hstocked hasserted), bytes_swap hplace hasserted,
      List.prefix_refl _⟩
    rw [step, if_pos hplace]
  | writing hplace hfull hsuffices =>
    refine ⟨{ s with output := s.output ++ contents s.buffersToWrite, place := .restoring }, ?_,
      hcurrent, { hstocked with }, .restoring rfl hsuffices, ?_, List.prefix_append _ _⟩
    · rw [step, if_pos hplace, writeAll_of_full hfull]
      rfl
    · simp [bytes, unwritten, hplace]
  | restoring hplace hsuffices =>
    obtain ⟨t, ht, htop, houtput, hbuffers, hcurrent', hnext⟩ := hsuffices.exists_restore
    refine ⟨t, ?_, hcurrent'.symm ▸ hcurrent, ?_, .done htop, ?_, houtput ▸ List.prefix_refl _⟩
    · rw [step, if_pos hplace, ht]
    · exact ⟨hbuffers ▸ hstocked.full, hnext ▸ hstocked.unused, hbuffers ▸ hnext ▸ hstocked.spent⟩
    · rw [bytes, bytes, houtput, hbuffers, hcurrent', unwritten, unwritten, if_neg (by simp [htop]),
        if_neg (by simp [hplace])]

/-! ### Iterations -/

/-- A run of actions of the writer, between which lines are appended. -/
theorem exists_run (NDEBUG : Bool) (hshort : ∀ line ∈ as.filterMap Action.line,
      line.length < KLargeBuffer)
    (hcurrent : s.currentBuffer_.isSome = true) (hstocked : s.Stocked)
    (h : s.Ahead (as.filter (·.line.isNone))) :
    ∃ t, Transition.run (step · NDEBUG) Transition.anyLabel s as = some t ∧ t.Ahead [] ∧
      t.bytes = s.bytes ++ (as.filterMap Action.line).flatten ∧ s.output <+: t.output := by
  induction as generalizing s with
  | nil => exact ⟨s, rfl, h, by simp, List.prefix_refl _⟩
  | cons a as ih =>
    have hrun : Transition.run (step · NDEBUG) Transition.anyLabel s (a :: as) =
        (s.step NDEBUG a).bind fun t =>
          Transition.run (step · NDEBUG) Transition.anyLabel t as := if_pos trivial
    rw [hrun]
    cases hline : a.line with
    | none =>
      rw [List.filter_cons_of_pos (by simp [hline])] at h
      rw [List.filterMap_cons_none hline] at hshort ⊢
      obtain ⟨t, ht, hcurrent', hstocked', hahead, hbytes, hprefix⟩ :=
        h.exists_step NDEBUG hcurrent hstocked
      rw [ht, Option.bind_some, ← hbytes]
      obtain ⟨u, hu, hdone, hbytes', hprefix'⟩ := ih hshort hcurrent' hstocked' hahead
      exact ⟨u, hu, hdone, hbytes', hprefix.trans hprefix'⟩
    | some line =>
      rw [List.filter_cons_of_neg (by simp [hline])] at h
      rw [List.filterMap_cons_some hline] at hshort ⊢
      obtain ⟨hfirst, hrest⟩ := List.forall_mem_cons.mp hshort
      cases a with
      | append line' hlen =>
        obtain rfl : line' = line := Option.some.inj hline
        obtain ⟨t, ht, hcurrent', hstocked', hahead, hbytes, houtput⟩ :=
          exists_append hlen hfirst hcurrent hstocked h
        obtain ⟨u, hu, hdone, hbytes', hprefix⟩ := ih hrest hcurrent' hstocked' hahead
        refine ⟨u, ?_, hdone, ?_, houtput ▸ hprefix⟩
        · rw [step, ht, Option.bind_some, hu]
        · rw [hbytes', hbytes, List.flatten_cons, List.append_assoc]
      | _ => exact absurd hline (by simp [Action.line])

/-- The buffers of the producers before the first section of the writer. -/
theorem stocked_of_reaches {NDEBUG : Bool}
    (h : Transition.Reaches (Transition.ofStep (step · NDEBUG)) Transition.anyLabel new s)
    (hzero : s.sections = 0) : s.Stocked := by
  refine h.invariant (I := fun s => s.sections = 0 → s.Stocked) (fun _ => ?_) ?_ hzero
  · exact ⟨by simp [new], rfl, by simp [new]⟩
  · intro t a t' ht _ hstep hzero
    have hm := moves_of_step hstep
    cases hm with
    | swap hplace => exact absurd hzero (Nat.succ_ne_zero _)
    | appendSpare hcurrent hfull happend => exact (ht hzero).addBuffer _
    | append hcurrent hfits happend => exact { ht hzero with }
    | restore hplace hptr1 hptr2 => exact { ht hzero with }
    | start hplace => exact { ht hzero with }
    | enter hplace => exact { ht hzero with }
    | iterate hplace hrunning => exact { ht hzero with }
    | leave hplace hrunning => exact { ht hzero with }
    | write hplace hwrite => exact { ht hzero with }
    | returns hi => exact { ht hzero with }
    | stop hplace hstopping => exact { ht hzero with }
    | join hstopping hplace => exact { ht hzero with }

/-- From every state at the top of the loop that is reached (or in which the buffers are as they are
in such a state), and in which the assertions hold and there is a current buffer, every iteration
comes to its end, whatever lines shorter than a buffer are appended meanwhile. No buffer is popped
from an empty vector, and the bytes written, followed by those then in the front buffers, are those
that were in the front buffers, followed by the lines in the order of the appends. -/
theorem conserves (NDEBUG : Bool)
    (hs : Transition.Reaches (Transition.ofStep (step · NDEBUG)) Transition.anyLabel new s ∨
      s.Stocked)
    (hplace : s.place = .top) (hrunning : s.running_ = true) (hasserted : s.Asserted)
    (hcurrent : s.currentBuffer_.isSome = true) (has : Iteration as) :
    ∃ t written, Transition.run (step · NDEBUG) Transition.anyLabel s as = some t ∧
      t.place = .top ∧ t.output = s.output ++ written ∧
      written ++ contents (t.buffers_ ++ [t.currentBuffer_]) =
        contents (s.buffers_ ++ [s.currentBuffer_]) ++ (as.filterMap Action.line).flatten := by
  have hstocked : s.Stocked := by
    rcases hs with hreach | hstocked
    · have howns : s.Owns :=
        hreach.invariant owns_new fun t a t' ht _ hstep => ht.moves (moves_of_step hstep)
      refine stocked_of_reaches hreach (Nat.eq_zero_of_not_pos fun hpos => ?_)
      exact absurd hasserted.isSome (by simp [howns.spent hpos])
    · exact hstocked
  have hahead : s.Ahead (as.filter (·.line.isNone)) := has.writer ▸ .top hplace hrunning hasserted
  obtain ⟨t, ht, hdone, hbytes, ⟨written, hwritten⟩⟩ :=
    exists_run NDEBUG has.short hcurrent hstocked hahead
  have hend : t.place = .top := by
    cases hdone
    assumption
  refine ⟨t, written, ht, hend, hwritten.symm, ?_⟩
  rw [bytes, bytes, unwritten, unwritten, if_neg (by simp [hend]), if_neg (by simp [hplace]),
    ← hwritten, List.append_assoc, List.append_assoc] at hbytes
  simpa using hbytes

/-- Two lines are appended, one before and one after the section of the writer. -/
theorem conserves_two_lines : ∃ s t : AsyncLogging, ∃ written,
    t.output = s.output ++ written ∧
      written ++ contents (t.buffers_ ++ [t.currentBuffer_]) =
        contents (s.buffers_ ++ [s.currentBuffer_]) ++ [97, 98] := by
  obtain ⟨s, hreach, ⟨hplace, hrunning, hasserted⟩, hcurrent⟩ := Transition.Reaches.exists_of_run
    (C := Transition.anyLabel) (s := new)
    (P := fun s => (s.place = .top ∧ s.running_ = true ∧ s.Asserted) ∧
      s.currentBuffer_.isSome = true) (step · false) [.start, .enter] (by decide +kernel)
  have has : Iteration [.evaluate, .append [97] (by decide), .swap, .append [98] (by decide),
      .write, .restore] := ⟨rfl, by decide⟩
  obtain ⟨t, written, -, -, houtput, hbytes⟩ :=
    conserves false (.inl hreach) hplace hrunning hasserted hcurrent has
  exact ⟨s, t, written, houtput, hbytes⟩

end AsyncLogging

end TinyMuduo
