import TinyMuduo.Base.LogFile

/-!
# What `append` counts

The loop of `AppendFile::append` in `base/FileUtil.cpp` is followed here for any sequence of results
of `fwrite_unlocked`: how many bytes it accepts, and whether the error flag of the stream is set
when it returns. If it accepts a part of what is left and the flag is set, the loop is left before
the part is added to `written`.

A byte is accepted from a position of the line. The positions are recorded next to `written`, from
which the pointer of the next call is computed. Since `written` is never past the line, it and what
is left are natural numbers here.

## Main definitions

* `AppendFile.writeLoop`, `AppendFile.appendResults`, `AppendFile.appendCalls`: the loop of
  `append`, a call and a sequence of calls.
* `AppendFile.Counts`: `writtenBytes()` grows by the number of accepted bytes, which are taken in
  the order of the line.
* `AppendFile.KeepsCount`: the results for which nothing is lost.

## Main results

* `AppendFile.counts_iff`: which calls count what they write.
* `AppendFile.writenBytes_appendCalls`: the size of a file after a sequence of calls.
* `AppendFile.exists_results`: the calls of `append` that `LogFile` makes are among them.
-/

namespace TinyMuduo

namespace AppendFile

/-- The loop of `append` from a value of `written`, for the results of `fwrite_unlocked`: the last
value of `written` and the positions of the accepted bytes. There is no value if the loop goes on
after the last result, or if more is accepted than was requested. -/
def writeLoop (len : ℕ) : ℕ → List (ℕ × Bool) → Option (ℕ × List ℕ)
  | written, [] => if written = len then some (written, []) else none
  | written, (n, err) :: results =>
    if written = len then some (written, [])
    else
      let remain := len - written
      if remain < n then none
      -- the `break`, after which `written` is still what it was before the call
      else if n ≠ remain ∧ err = true then some (written, List.range' written n)
      else (writeLoop len (written + n) results).map fun (last, accepted) =>
        (last, List.range' written n ++ accepted)

/-- The function `append` for the results of `fwrite_unlocked`, with the positions of the bytes that
it accepts. -/
def appendResults (file : AppendFile) (results : List (ℕ × Bool)) (line : List UInt8) (now : ℤ) :
    Option (AppendFile × List ℕ) :=
  (writeLoop line.length 0 results).map fun (written, accepted) =>
    ({ file with
      contents := file.contents ++ accepted.map (line.getD · 0)
      writenBytes := file.writenBytes + written
      lines := file.lines ++ [(line, now)] }, accepted)

/-- The size of the file grows by the number of the accepted bytes, and each of them is from the
position that follows those before it. -/
structure Counts (file file' : AppendFile) (accepted : List ℕ) : Prop where
  growth : file'.writenBytes = file.writenBytes + accepted.length
  order : accepted = List.range accepted.length

/-- A sequence of calls of `append`, each with the results of `fwrite_unlocked`, the line and the
reading of the clock. -/
def appendCalls (file : AppendFile) (calls : List (List (ℕ × Bool) × List UInt8 × ℤ)) :
    Option AppendFile :=
  calls.foldlM (fun file (results, line, now) =>
    (file.appendResults results line now).map Prod.fst) file

/-- If the first result with the error flag leaves a part of the line, then no byte was accepted
with it. -/
def KeepsCount (len : ℕ) (results : List (ℕ × Bool)) : Prop :=
  ∀ start n rest, results = start ++ (n, true) :: rest → (∀ result ∈ start, result.2 = false) →
    (start.map Prod.fst).sum + n < len → n = 0

variable {file file' : AppendFile} {results : List (ℕ × Bool)} {accepted : List ℕ}
  {calls : List (List (ℕ × Bool) × List UInt8 × ℤ)} {line bytes : List UInt8} {now : ℤ}
  {len written last n fuel : ℕ} {err : Bool} {fwrite : List UInt8 → ℕ × Bool}

/-! ### The condition -/

theorem keepsCount_nil (len : ℕ) : KeepsCount len [] :=
  fun _ _ _ h => absurd h (by simp)

theorem keepsCount_zero (results : List (ℕ × Bool)) : KeepsCount 0 results :=
  fun _ _ _ _ _ h => absurd h (Nat.not_lt_zero _)

theorem keepsCount_cons : KeepsCount len ((n, err) :: results) ↔
    (err = true → n < len → n = 0) ∧ (err = false → KeepsCount (len - n) results) := by
  constructor
  · intro h
    constructor
    · rintro rfl hn
      exact h [] n results rfl (by simp) (by simpa using hn)
    · rintro rfl start m rest rfl hstart hsum
      refine h ((n, false) :: start) m rest rfl (List.forall_mem_cons.mpr ⟨rfl, hstart⟩) ?_
      rw [List.map_cons, List.sum_cons]
      omega
  · rintro ⟨herr, hok⟩ start m rest hresults hstart hsum
    cases start with
    | nil =>
      obtain ⟨hresult, -⟩ := List.cons.inj hresults
      obtain ⟨rfl, rfl⟩ := Prod.mk.inj hresult
      exact herr rfl (by simpa using hsum)
    | cons result start =>
      obtain ⟨rfl, rfl⟩ := List.cons.inj hresults
      obtain ⟨hresult, hstart⟩ := List.forall_mem_cons.mp hstart
      refine hok hresult start m rest rfl hstart ?_
      rw [List.map_cons, List.sum_cons] at hsum
      omega

/-! ### The loop -/

/-- What one iteration does: the line is written, or the loop is left with an error, or it goes
on. -/
theorem writeLoop_cons (h : writeLoop len written ((n, err) :: results) = some (last, accepted)) :
    (written = len ∧ last = len ∧ accepted = []) ∨
    (n < len - written ∧ err = true ∧ last = written ∧ accepted = List.range' written n) ∨
    (n ≤ len - written ∧ (err = true → n = len - written) ∧
      ∃ rest, writeLoop len (written + n) results = some (last, rest) ∧
        accepted = List.range' written n ++ rest) := by
  simp only [writeLoop] at h
  split_ifs at h with hlen hfits hbreak
  · obtain ⟨rfl, rfl⟩ := Prod.mk.inj (Option.some.inj h)
    exact .inl ⟨hlen, hlen, rfl⟩
  · obtain ⟨rfl, rfl⟩ := Prod.mk.inj (Option.some.inj h)
    exact .inr (.inl ⟨by omega, hbreak.2, rfl, rfl⟩)
  · obtain ⟨⟨last', rest⟩, hrest, heq⟩ := Option.map_eq_some_iff.mp h
    obtain ⟨rfl, rfl⟩ := Prod.mk.inj heq
    refine .inr (.inr ⟨by omega, fun herr => ?_, rest, hrest, rfl⟩)
    by_contra hne
    exact hbreak ⟨hne, herr⟩

/-- The bytes are accepted in the order of the line, and the last value of `written` is past them
if and only if the results keep the count. -/
theorem writeLoop_spec (h : writeLoop len written results = some (last, accepted)) :
    accepted = List.range' written accepted.length ∧
      (last = written + accepted.length ↔ KeepsCount (len - written) results) := by
  induction results generalizing written accepted with
  | nil =>
    rw [writeLoop] at h
    split_ifs at h with hlen
    obtain ⟨rfl, rfl⟩ := Prod.mk.inj (Option.some.inj h)
    exact ⟨rfl, by simp [keepsCount_nil]⟩
  | cons result results ih =>
    obtain ⟨n, err⟩ := result
    rcases writeLoop_cons h with
      ⟨rfl, rfl, rfl⟩ | ⟨hn, rfl, rfl, rfl⟩ | ⟨hn, hfull, rest, hrest, rfl⟩
    · refine ⟨rfl, ?_⟩
      rw [Nat.sub_self]
      simp [keepsCount_zero]
    · rw [List.length_range', keepsCount_cons]
      simp [hn]
    · obtain ⟨horder, hgrowth⟩ := ih hrest
      rw [List.length_append, List.length_range']
      refine ⟨?_, ?_⟩
      · rw [← List.range'_append_1, ← horder]
      · rw [← Nat.add_assoc, hgrowth, keepsCount_cons, Nat.sub_add_eq]
        cases err with
        | false => simp
        | true =>
          -- nothing of the line is left
          rw [← hfull rfl, Nat.sub_self]
          simp [keepsCount_zero]

/-- The value of `written` is never past the accepted bytes, and these are never past the line. -/
theorem writeLoop_bounds (h : writeLoop len written results = some (last, accepted)) :
    last ≤ written + accepted.length ∧ (written ≤ len → written + accepted.length ≤ len) := by
  induction results generalizing written accepted with
  | nil =>
    rw [writeLoop] at h
    split_ifs at h
    obtain ⟨rfl, rfl⟩ := Prod.mk.inj (Option.some.inj h)
    exact ⟨le_rfl, id⟩
  | cons result results ih =>
    obtain ⟨n, err⟩ := result
    rcases writeLoop_cons h with
      ⟨rfl, rfl, rfl⟩ | ⟨hn, rfl, rfl, rfl⟩ | ⟨hn, -, rest, hrest, rfl⟩
    · exact ⟨le_rfl, id⟩
    · rw [List.length_range']
      omega
    · obtain ⟨hlast, hfits⟩ := ih hrest
      rw [List.length_append, List.length_range']
      omega

/-! ### One call -/

private theorem map_getD_range' (hn : written + n ≤ line.length) :
    (List.range' written n).map (line.getD · 0) = (line.drop written).take n := by
  refine List.ext_getElem (by simp; omega) fun i hi hi' => ?_
  rw [List.length_map, List.length_range'] at hi
  have hlt : written + i < line.length := by omega
  simp [hlt]

private theorem appendResults_eq_some
    (h : file.appendResults results line now = some (file', accepted)) :
    ∃ last, writeLoop line.length 0 results = some (last, accepted) ∧
      file'.writenBytes = file.writenBytes + last ∧
      file'.contents = file.contents ++ accepted.map (line.getD · 0) := by
  obtain ⟨⟨last, rest⟩, hloop, heq⟩ := Option.map_eq_some_iff.mp h
  obtain ⟨rfl, rfl⟩ := Prod.mk.inj heq
  exact ⟨last, hloop, rfl, rfl⟩

/-- A beginning of the line is added to the file, also where the loop is left with an error. -/
theorem contents_appendResults
    (h : file.appendResults results line now = some (file', accepted)) :
    accepted.length ≤ line.length ∧
      file'.contents = file.contents ++ line.take accepted.length := by
  obtain ⟨last, hloop, -, hcontents⟩ := appendResults_eq_some h
  have hle := (writeLoop_bounds hloop).2 (Nat.zero_le _)
  obtain ⟨horder, -⟩ := writeLoop_spec hloop
  have hbytes : accepted.map (line.getD · 0) = line.take accepted.length :=
    calc accepted.map (line.getD · 0)
        = (List.range' 0 accepted.length).map (line.getD · 0) := by rw [← horder]
      _ = (line.drop 0).take accepted.length := map_getD_range' hle
      _ = line.take accepted.length := by rw [List.drop_zero]
  exact ⟨by omega, by rw [hcontents, hbytes]⟩

/-- The size grows by what was accepted if and only if the results keep the count. -/
theorem writenBytes_eq_iff (h : file.appendResults results line now = some (file', accepted)) :
    file'.writenBytes = file.writenBytes + accepted.length ↔ KeepsCount line.length results := by
  obtain ⟨last, hloop, hwriten, -⟩ := appendResults_eq_some h
  obtain ⟨-, hgrowth⟩ := writeLoop_spec hloop
  rw [Nat.zero_add, Nat.sub_zero] at hgrowth
  rw [hwriten, Nat.add_left_cancel_iff, hgrowth]

private theorem writenBytes_le (h : file.appendResults results line now = some (file', accepted)) :
    file'.writenBytes ≤ file.writenBytes + accepted.length := by
  obtain ⟨last, hloop, hwriten, -⟩ := appendResults_eq_some h
  have hle := (writeLoop_bounds hloop).1
  omega

/-- A call of `append` that returns counts what `fwrite_unlocked` accepted, in the order of the
line, if and only if no byte was accepted by the first call with the error flag, unless the line was
complete after it. -/
theorem counts_iff (h : file.appendResults results line now = some (file', accepted)) :
    Counts file file' accepted ↔ KeepsCount line.length results := by
  have hiff := writenBytes_eq_iff h
  obtain ⟨last, hloop, -, -⟩ := appendResults_eq_some h
  obtain ⟨horder, -⟩ := writeLoop_spec hloop
  constructor
  · intro hcounts
    exact hiff.mp hcounts.growth
  · intro hkeeps
    exact ⟨hiff.mpr hkeeps, by rw [List.range_eq_range']; exact horder⟩

/-- The loop is left with an error after two bytes, which are counted. -/
theorem counts_of_error : ∃ file',
    (new 0).appendResults [(2, false), (0, true)] [108, 105, 110, 101, 10] 0 =
      some (file', [0, 1]) ∧ Counts (new 0) file' [0, 1] := by
  have happend : (new 0).appendResults [(2, false), (0, true)] [108, 105, 110, 101, 10] 0 =
      some (⟨0, [108, 105], 2, [([108, 105, 110, 101, 10], 0)]⟩, [0, 1]) := rfl
  refine ⟨_, happend, (counts_iff happend).mpr ?_⟩
  simp [keepsCount_cons]

/-- The loop is left with an error after three bytes, which are in the file and are not counted. -/
theorem not_counts_of_error : ∃ file' accepted,
    (new 0).appendResults [(3, true)] [108, 105, 110, 101, 10] 0 = some (file', accepted) ∧
      file'.contents = [108, 105, 110] ∧ file'.writenBytes = 0 ∧
      ¬ Counts (new 0) file' accepted :=
  ⟨_, _, rfl, rfl, rfl, fun h => absurd h.growth (by decide)⟩

/-! ### The size of the file -/

private theorem length_contents_appendResults
    (h : file.appendResults results line now = some (file', accepted)) :
    file'.contents.length = file.contents.length + accepted.length := by
  obtain ⟨hle, hcontents⟩ := contents_appendResults h
  rw [hcontents, List.length_append, List.length_take, Nat.min_eq_left hle]

/-- After any sequence of calls the size that decides about the next file is at most the number of
bytes in this one, and it is this number if all results keep the count. -/
theorem writenBytes_appendCalls (h : file.appendCalls calls = some file') :
    (file.writenBytes ≤ file.contents.length → file'.writenBytes ≤ file'.contents.length) ∧
      ((∀ call ∈ calls, KeepsCount call.2.1.length call.1) →
        file.writenBytes = file.contents.length → file'.writenBytes = file'.contents.length) := by
  induction calls generalizing file with
  | nil =>
    obtain rfl := Option.some.inj h
    exact ⟨id, fun _ => id⟩
  | cons call calls ih =>
    obtain ⟨results, line, now⟩ := call
    rw [appendCalls, List.foldlM_cons] at h
    obtain ⟨file₁, hcall, hrest⟩ := Option.bind_eq_some_iff.mp h
    obtain ⟨⟨file₂, accepted⟩, happend, hfile₂⟩ := Option.map_eq_some_iff.mp hcall
    obtain rfl : file₂ = file₁ := hfile₂
    obtain ⟨hle, heq⟩ := ih hrest
    have hlen := length_contents_appendResults happend
    have hkept := writenBytes_eq_iff happend
    constructor
    · intro hfile
      have hgrowth := writenBytes_le happend
      exact hle (by omega)
    · intro hkeeps hfile
      obtain ⟨hcall, hcalls⟩ := List.forall_mem_cons.mp hkeeps
      have hgrowth := hkept.mpr hcall
      exact heq hcalls (by omega)

/-! ### The calls of `LogFile` -/

/-- A loop with a function for `fwrite` is one with a sequence of results. -/
theorem exists_writeLoop {rest : List UInt8} (hfwrite : ∀ bytes, (fwrite bytes).1 ≤ bytes.length)
    (h : appendLoop fwrite fuel rest = some (bytes, n)) (hrest : line.drop written = rest)
    (hwritten : written ≤ line.length) :
    ∃ results accepted,
      writeLoop line.length written results = some (written + n, accepted) ∧
        accepted.map (line.getD · 0) = bytes := by
  fun_induction appendLoop fwrite fuel rest generalizing written bytes n with
  | case1 fuel =>
    obtain ⟨rfl, rfl⟩ := Prod.mk.inj (Option.some.inj h)
    have hlen := List.drop_eq_nil_iff.mp hrest
    refine ⟨[], [], ?_, rfl⟩
    rw [writeLoop, if_pos (by omega), Nat.add_zero]
  | case2 b rest => cases h
  | case3 fuel rest hne m err hresult hbreak =>
    obtain ⟨rfl, rfl⟩ := Prod.mk.inj (Option.some.inj h)
    have hm : m ≤ rest.length := by simpa [hresult] using hfwrite rest
    have hlen : rest.length = line.length - written := by rw [← hrest, List.length_drop]
    refine ⟨[(m, err)], List.range' written m, ?_, ?_⟩
    · simp only [writeLoop]
      rw [if_neg (by omega), if_neg (by omega), if_pos (hlen ▸ hbreak), Nat.add_zero]
    · rw [map_getD_range' (by omega), hrest]
  | case4 fuel rest hne m err hresult hbreak ih =>
    obtain ⟨⟨bytes', n'⟩, hloop, heq⟩ := Option.map_eq_some_iff.mp h
    obtain ⟨rfl, rfl⟩ := Prod.mk.inj heq
    have hm : m ≤ rest.length := by simpa [hresult] using hfwrite rest
    have hlen : rest.length = line.length - written := by rw [← hrest, List.length_drop]
    have hpos : 0 < rest.length := List.length_pos_iff.mpr hne
    obtain ⟨results, accepted, hresults, hbytes⟩ :=
      ih hloop (by rw [← hrest, List.drop_drop]) (by omega)
    refine ⟨(m, err) :: results, List.range' written m ++ accepted, ?_, ?_⟩
    · simp only [writeLoop]
      rw [if_neg (by omega), if_neg (by omega), if_neg (hlen ▸ hbreak), hresults, ← Nat.add_assoc]
      rfl
    · rw [List.map_append, map_getD_range' (by omega), hrest, hbytes]

/-- What `LogFile` does with its file is a call for a sequence of results. -/
theorem exists_results (hfwrite : ∀ bytes, (fwrite bytes).1 ≤ bytes.length)
    (h : file.append fwrite line now = some file') :
    ∃ results accepted, file.appendResults results line now = some (file', accepted) := by
  obtain ⟨⟨bytes, n⟩, hloop, rfl⟩ := Option.map_eq_some_iff.mp h
  obtain ⟨results, accepted, hresults, rfl⟩ :=
    exists_writeLoop hfwrite hloop List.drop_zero (Nat.zero_le _)
  refine ⟨results, accepted, ?_⟩
  rw [appendResults, hresults, Nat.zero_add]
  rfl

end AppendFile

end TinyMuduo
