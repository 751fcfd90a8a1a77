import Mathlib.Algebra.Ring.Nat
import Mathlib.Data.Int.Order.Basic
import Mathlib.Data.List.Basic
import Mathlib.Order.MinMax
import Mathlib.Tactic.SplitIfs

/-!
# Rolling log files

This file embeds `base/FileUtil.h`, `base/FileUtil.cpp`, `base/LogFile.h` and `base/LogFile.cpp`. A
`LogFile` appends to one `AppendFile` at a time. It starts another one when the size of the file
exceeds `rollSize_`, or when every `checkEveryN_` calls a new day is seen, but never two of them in
one second. The files are opened, and `fwrite` takes some of the bytes that it is given and says
whether there is an error. The clock is read once in each call.

The files that were replaced, and the lines that were appended to a file with the readings of the
clock, are recorded in the states and read by nothing.

## Main definitions

* `AppendFile`, `LogFile`, with one definition for each member function.
* `LogFile.Rolled`: how large the files may become, and what they contain.

## Main results

* `LogFile.rolled_of_appendAll`: in every sequence of calls the files are rolled in this way.
-/

namespace TinyMuduo

/-- The class `AppendFile`, created in the second that its name contains. -/
structure AppendFile where
  created : ℤ
  contents : List UInt8
  writenBytes : ℕ
  lines : List (List UInt8 × ℤ)

namespace AppendFile

/-- The constructor. -/
def new (now : ℤ) : AppendFile := ⟨now, [], 0, []⟩

/-- The loop of `append`, which goes on until the rest of the line is written or there is an error:
the bytes that `fwrite` takes, and by how much `written` grows. -/
def appendLoop (fwrite : List UInt8 → ℕ × Bool) : ℕ → List UInt8 → Option (List UInt8 × ℕ)
  | _, [] => some ([], 0)
  | 0, _ :: _ => none
  | fuel + 1, rest =>
    let (n, err) := fwrite rest
    if n ≠ rest.length ∧ err = true then some (rest.take n, 0)
    else (appendLoop fwrite fuel (rest.drop n)).map fun (bytes, written) =>
      (rest.take n ++ bytes, n + written)

variable (file : AppendFile)

def append (fwrite : List UInt8 → ℕ × Bool) (line : List UInt8) (now : ℤ) : Option AppendFile :=
  (appendLoop fwrite line.length line).map fun (bytes, written) =>
    { file with
      contents := file.contents ++ bytes
      writenBytes := file.writenBytes + written
      lines := file.lines ++ [(line, now)] }

/-- The bytes of the lines that were appended in a given second. -/
def bytesAt (second : ℤ) : ℕ := ((file.lines.filter (·.2 = second)).map (·.1.length)).sum

/-- The length of the last line, or zero if there is none. -/
def lastLength : ℕ := file.lines.getLast?.elim 0 (·.1.length)

end AppendFile

/-- The class `LogFile`. -/
structure LogFile where
  rollSize_ : ℤ
  flushInterval_ : ℤ
  checkEveryN_ : ℤ
  count_ : ℤ
  startOfperiod_ : ℤ
  lastRoll_ : ℤ
  lastFlush_ : ℤ
  file_ : Option AppendFile
  replaced : List AppendFile

namespace LogFile

def kpollpersecond : ℤ := 60 * 60 * 24

variable (f : LogFile)

/-- The instances of `AppendFile` in the order of their creation. -/
def instances : List AppendFile := f.replaced ++ f.file_.toList

/-- `rollFile`, with the reading of the clock that is also in the name of the file. -/
def rollFile (now : ℤ) : LogFile × Bool :=
  let start := now.tdiv kpollpersecond * kpollpersecond
  if f.lastRoll_ < now then
    ({ f with
      count_ := 0
      lastRoll_ := now
      lastFlush_ := now
      startOfperiod_ := start
      file_ := some (.new now)
      replaced := f.replaced ++ f.file_.toList }, true)
  else (f, false)

/-- The constructor. -/
def new (rollSize flushInterval checkEveryN now : ℤ) : LogFile :=
  (rollFile ⟨rollSize, flushInterval, checkEveryN, 0, 0, 0, 0, none, []⟩ now).1

/-- What follows after the line was appended to the file. -/
def check (now : ℤ) (writtenBytes : ℕ) : LogFile :=
  if f.rollSize_ < writtenBytes then (f.rollFile now).1
  else
    let f := { f with count_ := f.count_ + 1 }
    if f.checkEveryN_ ≤ f.count_ then
      let f := { f with count_ := 0 }
      let thisPeriod := now.tdiv kpollpersecond * kpollpersecond
      if thisPeriod ≠ f.startOfperiod_ then (f.rollFile now).1
      else if f.flushInterval_ < now - f.lastFlush_ then { f with lastFlush_ := now }
      else f
    else f

def append_unlock (fwrite : List UInt8 → ℕ × Bool) (line : List UInt8) (now : ℤ) :
    Option LogFile :=
  f.file_.bind fun file =>
    (file.append fwrite line now).map fun file =>
      check { f with file_ := some file } now file.writenBytes

/-- A sequence of calls of `append`, with the readings of the clock. -/
def appendAll (fwrite : List UInt8 → ℕ × Bool) (calls : List (List UInt8 × ℤ)) : Option LogFile :=
  calls.foldlM (fun f call => f.append_unlock fwrite call.1 call.2) f

/-- The bytes in each file number at most the roll size, or the bytes of the lines that were
appended in the second of its creation, and one line more. The files were created in different
seconds, and one after the other they contain the lines of all calls, each one in one file. -/
structure Rolled (rollSize : ℤ) (calls : List (List UInt8 × ℤ)) : Prop where
  length_le : ∀ file ∈ f.instances, (file.contents.length : ℤ) ≤
    max rollSize (file.bytesAt file.created) + file.lastLength
  increasing : (f.instances.map (·.created)).Pairwise (· < ·)
  contents_eq : ∀ file ∈ f.instances, file.contents = (file.lines.map Prod.fst).flatten
  complete : f.instances.flatMap (·.lines) = calls

end LogFile

/-! ### One file -/

namespace AppendFile

/-- A file that is complete: it contains its lines, and without the last one it is not too large. -/
structure Complete (file : AppendFile) (rollSize : ℤ) : Prop where
  contents_eq : file.contents = (file.lines.map Prod.fst).flatten
  length_le : (file.contents.length : ℤ) ≤
    max rollSize (file.bytesAt file.created) + file.lastLength

/-- The file in use. If it is too large, then all of its lines were appended in the second of its
creation. -/
structure InUse (file : AppendFile) (rollSize now : ℤ) : Prop where
  contents_eq : file.contents = (file.lines.map Prod.fst).flatten
  writen_eq : file.writenBytes = file.contents.length
  readings : ∀ line ∈ file.lines, file.created ≤ line.2 ∧ line.2 ≤ now
  small : (file.writenBytes : ℤ) ≤ rollSize ∨ ∀ line ∈ file.lines, line.2 = file.created

/-- The file after a line was appended. -/
def addLine (file : AppendFile) (line : List UInt8) (now : ℤ) : AppendFile where
  created := file.created
  contents := file.contents ++ line
  writenBytes := file.writenBytes + line.length
  lines := file.lines ++ [(line, now)]

variable {file : AppendFile} {rollSize now now' : ℤ} {line : List UInt8}
  {fwrite : List UInt8 → ℕ × Bool}

/-- Where `fwrite` takes all bytes, the loop ends after one iteration. -/
theorem append_eq_addLine (hfwrite : ∀ bytes, (fwrite bytes).1 = bytes.length) :
    file.append fwrite line now = some (file.addLine line now) := by
  have hloop : appendLoop fwrite line.length line = some (line, line.length) := by
    cases line with
    | nil => rfl
    | cons b rest =>
      obtain ⟨err, hwrite⟩ : ∃ err, fwrite (b :: rest) = ((b :: rest).length, err) :=
        ⟨_, Prod.ext (hfwrite _) rfl⟩
      rw [List.length_cons, appendLoop, hwrite]
      · simp [appendLoop]
      · exact List.cons_ne_nil b rest
  rw [append, hloop]
  rfl

private theorem inUse_new (rollSize now : ℤ) : (new now).InUse rollSize now where
  contents_eq := rfl
  writen_eq := rfl
  readings := by simp [new]
  small := .inr (by simp [new])

/-- If all lines were appended in the second of the creation, the bytes of that second are all. -/
theorem length_eq_bytesAt (hcontents : file.contents = (file.lines.map Prod.fst).flatten)
    (h : ∀ line ∈ file.lines, line.2 = file.created) :
    file.contents.length = file.bytesAt file.created := by
  have hall : file.lines.filter (·.2 = file.created) = file.lines :=
    List.filter_eq_self.mpr fun line hline => decide_eq_true (h line hline)
  rw [hcontents, bytesAt, hall, List.length_flatten, List.map_map]
  rfl

/-- A file that was in use is complete after one more line. -/
theorem InUse.complete_addLine (h : file.InUse rollSize now) (line : List UInt8) (now' : ℤ) :
    (file.addLine line now').Complete rollSize where
  contents_eq := by
    rw [addLine, h.contents_eq, List.map_append, List.flatten_append]
    simp
  length_le := by
    have hlast : (file.addLine line now').lastLength = line.length := by
      simp [lastLength, addLine]
    have hlen : ((file.addLine line now').contents.length : ℤ) =
        file.contents.length + line.length := by
      simp [addLine]
    have hbytes : file.bytesAt file.created ≤ (file.addLine line now').bytesAt file.created := by
      simp [bytesAt, addLine, List.filter_append]
    rw [hlast, hlen]
    refine Int.add_le_add_right ?_ _
    rcases h.small with hsmall | hall
    · exact le_max_of_le_left (h.writen_eq ▸ hsmall)
    · refine le_max_of_le_right ?_
      rw [length_eq_bytesAt h.contents_eq hall]
      exact Int.ofNat_le.mpr hbytes

theorem InUse.complete (h : file.InUse rollSize now) : file.Complete rollSize where
  contents_eq := h.contents_eq
  length_le := by
    refine Int.le_trans ?_ (Int.le_add_of_nonneg_right (Int.natCast_nonneg _))
    rcases h.small with hsmall | hall
    · exact le_max_of_le_left (h.writen_eq ▸ hsmall)
    · exact le_max_of_le_right (by rw [length_eq_bytesAt h.contents_eq hall])

/-- A file stays in use if it is small enough, or if its second has not passed. -/
theorem InUse.addLine (h : file.InUse rollSize now) (hcreated : file.created ≤ now)
    (hnow : now ≤ now')
    (hsmall : ((file.writenBytes + line.length : ℕ) : ℤ) ≤ rollSize ∨ now' ≤ file.created) :
    (file.addLine line now').InUse rollSize now' where
  contents_eq := (h.complete_addLine line now').contents_eq
  writen_eq := by
    rw [AppendFile.addLine, h.writen_eq, List.length_append]
  readings := by
    refine List.forall_mem_append.mpr ⟨fun line' hline' => ?_, List.forall_mem_singleton.mpr ?_⟩
    · obtain ⟨hlo, hhi⟩ := h.readings line' hline'
      exact ⟨hlo, hhi.trans hnow⟩
    · exact ⟨hcreated.trans hnow, le_rfl⟩
  small := by
    refine hsmall.imp_right fun hle => ?_
    refine List.forall_mem_append.mpr ⟨fun line' hline' => ?_, List.forall_mem_singleton.mpr ?_⟩
    · obtain ⟨hlo, hhi⟩ := h.readings line' hline'
      exact Int.le_antisymm ((hhi.trans hnow).trans hle) hlo
    · exact Int.le_antisymm hle (hcreated.trans hnow)

end AppendFile

/-! ### Rolling -/

namespace LogFile

/-- The file in use was created at the last roll, the others are complete, and together they hold
the lines of the calls. -/
structure Holds (f : LogFile) (rollSize : ℤ) (file : AppendFile) (calls : List (List UInt8 × ℤ)) :
    Prop where
  size : f.rollSize_ = rollSize
  current : f.file_ = some file
  created : file.created = f.lastRoll_
  replaced : ∀ old ∈ f.replaced, old.Complete rollSize
  increasing : ((f.replaced ++ [file]).map (·.created)).Pairwise (· < ·)
  complete : (f.replaced ++ [file]).flatMap (·.lines) = calls

/-- The invariant after the calls, the last one of which has read `now` from the clock. -/
def Sound (f : LogFile) (rollSize now : ℤ) (calls : List (List UInt8 × ℤ)) : Prop :=
  ∃ file, f.Holds rollSize file calls ∧ file.InUse rollSize now ∧ f.lastRoll_ ≤ now

variable {f : LogFile} {file : AppendFile} {rollSize flushInterval checkEveryN start now now' : ℤ}
  {calls : List (List UInt8 × ℤ)} {fwrite : List UInt8 → ℕ × Bool}

/-- No file was created after the last roll. -/
theorem Holds.created_le (h : f.Holds rollSize file calls) {old : AppendFile}
    (hold : old ∈ f.replaced ++ [file]) : old.created ≤ f.lastRoll_ := by
  have hincreasing := h.increasing
  rw [List.map_append, List.pairwise_append] at hincreasing
  rcases List.mem_append.mp hold with hold | hold
  · rw [← h.created]
    exact (hincreasing.2.2 _ (List.mem_map_of_mem hold) _ (List.mem_singleton_self _)).le
  · rw [List.mem_singleton.mp hold, h.created]

/-- After a call of `rollFile` the files are sound, if the file is complete, and still in use when
its second has not passed. -/
theorem Holds.sound_rollFile (h : f.Holds rollSize file calls) (hcomplete : file.Complete rollSize)
    (hle : f.lastRoll_ ≤ now) (hinUse : now ≤ f.lastRoll_ → file.InUse rollSize now) :
    (f.rollFile now).1.Sound rollSize now calls := by
  rw [rollFile]
  split_ifs with hlt
  · have hreplaced : f.replaced ++ f.file_.toList = f.replaced ++ [file] := by
      rw [h.current]
      rfl
    refine ⟨.new now, ⟨h.size, rfl, rfl, ?_, ?_, ?_⟩, AppendFile.inUse_new rollSize now, le_rfl⟩
    · rw [hreplaced]
      exact List.forall_mem_append.mpr ⟨h.replaced, List.forall_mem_singleton.mpr hcomplete⟩
    · rw [hreplaced, List.map_append, List.pairwise_append]
      refine ⟨h.increasing, List.pairwise_singleton _ _, fun created hcreated created' hnew => ?_⟩
      obtain ⟨old, hold, rfl⟩ := List.mem_map.mp hcreated
      rw [List.mem_singleton.mp hnew]
      exact (h.created_le hold).trans_lt hlt
    · rw [hreplaced, List.flatMap_append, h.complete]
      simp [AppendFile.new]
  · exact ⟨file, h, hinUse (not_lt.mp hlt), hle⟩

/-- The checks after a line was appended roll the file in the end or leave it in use. -/
theorem Holds.sound_check (h : f.Holds rollSize file calls) (hcomplete : file.Complete rollSize)
    (hle : f.lastRoll_ ≤ now)
    (hinUse : (file.writenBytes : ℤ) ≤ rollSize ∨ now ≤ file.created → file.InUse rollSize now) :
    (f.check now file.writenBytes).Sound rollSize now calls := by
  unfold check
  dsimp only
  split_ifs with hsize hcount hperiod hflush
  · exact h.sound_rollFile hcomplete hle fun hnow => hinUse (.inr (h.created ▸ hnow))
  · have hsmall := hinUse (.inl (h.size ▸ not_lt.mp hsize))
    have h' : { f with count_ := 0 }.Holds rollSize file calls := { h with }
    exact h'.sound_rollFile hcomplete hle fun _ => hsmall
  all_goals exact ⟨file, { h with }, hinUse (.inl (h.size ▸ not_lt.mp hsize)), hle⟩

/-- A call of `append`. -/
theorem Sound.exists_append (h : f.Sound rollSize now calls)
    (hfwrite : ∀ bytes, (fwrite bytes).1 = bytes.length) (line : List UInt8) (hnow : now ≤ now') :
    ∃ f', f.append_unlock fwrite line now' = some f' ∧
      f'.Sound rollSize now' (calls ++ [(line, now')]) := by
  obtain ⟨file, hholds, hinUse, hle⟩ := h
  have happend : f.append_unlock fwrite line now' =
      some (check { f with file_ := some (file.addLine line now') } now'
        (file.addLine line now').writenBytes) := by
    rw [append_unlock, hholds.current, Option.bind_some, AppendFile.append_eq_addLine hfwrite]
    rfl
  have hholds' : { f with file_ := some (file.addLine line now') }.Holds rollSize
      (file.addLine line now') (calls ++ [(line, now')]) :=
    { size := hholds.size
      current := rfl
      created := hholds.created
      replaced := hholds.replaced
      increasing := by simpa [AppendFile.addLine] using hholds.increasing
      complete := by
        rw [← hholds.complete]
        simp [AppendFile.addLine] }
  refine ⟨_, happend, hholds'.sound_check (hinUse.complete_addLine line now') (hle.trans hnow) ?_⟩
  exact hinUse.addLine (hholds.created ▸ hle) hnow

/-! ### Sequences of calls -/

theorem Sound.exists_appendAll (h : f.Sound rollSize now calls)
    (hfwrite : ∀ bytes, (fwrite bytes).1 = bytes.length) (rest : List (List UInt8 × ℤ))
    (hclock : (now :: rest.map Prod.snd).Pairwise (· ≤ ·)) :
    ∃ f' now', f.appendAll fwrite rest = some f' ∧ f'.Sound rollSize now' (calls ++ rest) := by
  induction rest generalizing f now calls with
  | nil => exact ⟨f, now, rfl, by rwa [List.append_nil]⟩
  | cons call rest ih =>
    obtain ⟨line, now'⟩ := call
    obtain ⟨hnow, hrest⟩ := List.pairwise_cons.mp hclock
    obtain ⟨f₁, hf₁, hsound⟩ := h.exists_append hfwrite line (hnow now' List.mem_cons_self)
    obtain ⟨f', last, hf', hsound'⟩ := ih hsound hrest
    refine ⟨f', last, ?_, by simpa using hsound'⟩
    rw [appendAll, List.foldlM_cons]
    exact (congrArg (Option.bind · _) hf₁).trans hf'

theorem Sound.rolled (h : f.Sound rollSize now calls) : f.Rolled rollSize calls := by
  obtain ⟨file, hholds, hinUse, -⟩ := h
  have hinstances : f.instances = f.replaced ++ [file] := by
    rw [instances, hholds.current]
    rfl
  have hcomplete : ∀ old ∈ f.instances, old.Complete rollSize := by
    rw [hinstances]
    exact List.forall_mem_append.mpr
      ⟨hholds.replaced, List.forall_mem_singleton.mpr hinUse.complete⟩
  exact
    { length_le := fun old hold => (hcomplete old hold).length_le
      increasing := hinstances ▸ hholds.increasing
      contents_eq := fun old hold => (hcomplete old hold).contents_eq
      complete := hinstances ▸ hholds.complete }

/-- The constructor creates a file, provided that the clock shows a time behind the epoch. -/
theorem sound_new (h : 0 < start) :
    (new rollSize flushInterval checkEveryN start).Sound rollSize start [] := by
  rw [new, rollFile, if_pos h]
  exact ⟨.new start, ⟨rfl, rfl, rfl, by simp, by simp, rfl⟩, AppendFile.inUse_new rollSize start,
    le_rfl⟩

/-- For every sequence of calls in which the clock does not go back: the calls have a result exactly
if there is a file, which the constructor creates when the clock is behind the epoch, and whenever
they have a result, the files are rolled as they should be. -/
theorem rolled_of_appendAll (rollSize flushInterval checkEveryN start : ℤ)
    (calls : List (List UInt8 × ℤ)) (fwrite : List UInt8 → ℕ × Bool)
    (hfwrite : ∀ bytes, (fwrite bytes).1 = bytes.length)
    (hclock : (start :: calls.map Prod.snd).Pairwise (· ≤ ·)) :
    ((∃ f, (new rollSize flushInterval checkEveryN start).appendAll fwrite calls = some f) ↔
      0 < start ∨ calls = []) ∧
    ∀ f, (new rollSize flushInterval checkEveryN start).appendAll fwrite calls = some f →
      f.Rolled rollSize calls := by
  rcases lt_or_ge 0 start with hstart | hstart
  · obtain ⟨f, now, hf, hsound⟩ := (sound_new hstart).exists_appendAll hfwrite calls hclock
    refine ⟨iff_of_true ⟨f, hf⟩ (.inl hstart), fun f' hf' => ?_⟩
    obtain rfl := Option.some.inj (hf.symm.trans hf')
    exact hsound.rolled
  · have hnew : new rollSize flushInterval checkEveryN start =
        ⟨rollSize, flushInterval, checkEveryN, 0, 0, 0, 0, none, []⟩ := by
      rw [new, rollFile, if_neg (not_lt.mpr hstart)]
    rw [hnew]
    cases calls with
    | nil =>
      refine ⟨iff_of_true ⟨_, rfl⟩ (.inr rfl), fun f hf => ?_⟩
      obtain rfl := Option.some.inj hf
      constructor <;> simp [instances]
    | cons call rest =>
      refine ⟨iff_of_false ?_ ?_, fun f hf => absurd hf (by simp [appendAll, append_unlock])⟩
      · rintro ⟨f, hf⟩
        exact absurd hf (by simp [appendAll, append_unlock])
      · exact not_or.mpr ⟨not_lt.mpr hstart, List.cons_ne_nil _ _⟩

/-- Three lines for a roll size of three bytes: the second one makes the file too large in the
second of its creation, and the third one is the last line of this file. -/
theorem rolled_three_lines :
    ∃ f, (new 3 3 1024 100).appendAll (fun bytes => (bytes.length, false))
        [([97, 98], 100), ([99, 100], 100), ([101], 101)] = some f ∧ f.instances.length = 2 ∧
      f.Rolled 3 [([97, 98], 100), ([99, 100], 100), ([101], 101)] := by
  obtain ⟨hex, hrolled⟩ := rolled_of_appendAll 3 3 1024 100
    [([97, 98], 100), ([99, 100], 100), ([101], 101)] (fun bytes => (bytes.length, false))
    (fun bytes => rfl) (by decide)
  obtain ⟨f, hf⟩ := hex.mpr (.inl (by decide))
  have hlen : ((new 3 3 1024 100).appendAll (fun bytes => (bytes.length, false))
      [([97, 98], 100), ([99, 100], 100), ([101], 101)]).map (·.instances.length) = some 2 := by
    decide +kernel
  rw [hf] at hlen
  exact ⟨f, hf, Option.some.inj hlen, hrolled f hf⟩

end LogFile

end TinyMuduo
