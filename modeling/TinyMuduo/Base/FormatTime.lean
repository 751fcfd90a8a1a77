import TinyMuduo.Base.Logging

/-!
# The time in front of a record

The time is formatted with a year of four digits and underscores between the parts of the date, 19
bytes in all, and the first 17 of them are copied into the stream: the seconds are left out. Behind
them the six digits of the microseconds are copied with one byte more, which is meant to be a space
and is the zero byte that ends the string. So every record starts with a text that contains a zero
byte, and records of one minute have the same text whenever their microseconds agree.

## Main definitions

* `LogTime`: the times with a year of four digits.
* `LogTime.text`: what `formatTime` writes to the stream.
* `LogTime.Faithful`: the texts of different times differ, and there is no zero byte in them.

## Main results

* `LogTime.text_eq_some`: the text.
* `LogTime.not_faithful`: the texts are never faithful, and when those of two times are equal.
-/

namespace TinyMuduo

/-- A local time as `localtime` gives it, in a year of four digits, and the microseconds of the
record. -/
structure LogTime where
  now : Tm
  mirtime : ℕ
  year_mem : 1000 ≤ now.year ∧ now.year ≤ 9999
  month_mem : 1 ≤ now.month ∧ now.month ≤ 12
  day_mem : 1 ≤ now.day ∧ now.day ≤ 31
  hour_le : now.hour ≤ 23
  minute_le : now.minute ≤ 59
  second_le : now.second ≤ 60

/-! ### Padded numbers -/

theorem length_padded {fill : UInt8} {width n : ℕ} (hwidth : 0 < width) (h : n < 10 ^ width) :
    (padded fill width n).length = width := by
  have hle := (Decimal.length_digits_le_iff hwidth).mpr h
  rw [padded, List.length_append, List.length_replicate]
  omega

/-- Numbers that are padded with zeros can be read back. -/
theorem padded_zeros_injective (width : ℕ) : Function.Injective (padded 48 width) := by
  intro n n' h
  have hvalue (n : ℕ) : Decimal.value (padded 48 width n) = n := by
    rw [padded, Decimal.value_zeros_append, Decimal.value_digits]
  rw [← hvalue n, h, hvalue]

/-- A number of `width` digits is not padded. -/
theorem padded_eq_digits {fill : UInt8} {width n : ℕ} (h : 10 ^ width ≤ n) :
    padded fill (width + 1) n = Decimal.digits n := by
  have hlen : width + 1 ≤ (Decimal.digits n).length := by
    rcases Nat.eq_zero_or_pos width with rfl | hpos
    · have hpos : 0 < n := h
      obtain ⟨d, ds, hds, -⟩ := Decimal.exists_digits_eq_cons hpos
      rw [hds, List.length_cons]
      exact Nat.succ_le_succ (Nat.zero_le _)
    · by_contra hlt
      exact absurd ((Decimal.length_digits_le_iff hpos).mp (by omega)) (Nat.not_lt_of_le h)
  rw [padded, Nat.sub_eq_zero_of_le hlen, List.replicate_zero, List.nil_append]

namespace LogTime

variable (t t' : LogTime)

/-- The microseconds of the record. -/
def micros : ℕ := t.mirtime % (1000 * 1000)

/-- What `formatTime` writes to the stream of a new logger. -/
def text (stray : UInt8) : Option (List UInt8) :=
  (LogStream.new.insertAll stray (formatTime t.now t.mirtime)).map (·.buffer_.data)

/-- The texts of two times differ if the local times or the microseconds do, and contain no zero
byte. -/
def Faithful (stray : UInt8) : Prop :=
  (t.now ≠ t'.now ∨ t.micros ≠ t'.micros → t.text stray ≠ t'.text stray) ∧
    (∀ text ∈ t.text stray, 0 ∉ text) ∧ ∀ text ∈ t'.text stray, 0 ∉ text

/-- The first 17 bytes of the time. -/
def minuteText : List UInt8 :=
  padded 32 4 t.now.year ++ bytesOf "_" ++ padded 48 2 t.now.month ++ bytesOf "_" ++
    padded 48 2 t.now.day ++ bytesOf " " ++ padded 48 2 t.now.hour ++ bytesOf ":" ++
    padded 48 2 t.now.minute ++ bytesOf ":"

/-- The widths of the fields. -/
theorem length_fields : (padded 32 4 t.now.year).length = 4 ∧
    (padded 48 2 t.now.month).length = 2 ∧ (padded 48 2 t.now.day).length = 2 ∧
    (padded 48 2 t.now.hour).length = 2 ∧ (padded 48 2 t.now.minute).length = 2 := by
  have hyear := t.year_mem
  have hmonth := t.month_mem
  have hday := t.day_mem
  have hhour := t.hour_le
  have hminute := t.minute_le
  exact ⟨length_padded (by decide) (by omega), length_padded (by decide) (by omega),
    length_padded (by decide) (by omega), length_padded (by decide) (by omega),
    length_padded (by decide) (by omega)⟩

theorem length_minuteText : t.minuteText.length = 17 := by
  obtain ⟨hyear, hmonth, hday, hhour, hminute⟩ := t.length_fields
  simp [minuteText, hyear, hmonth, hday, hhour, hminute, bytesOf]

private theorem micros_lt : t.micros < 10 ^ 6 := Nat.mod_lt _ (by decide)

/-- The times agree up to the minute. -/
def SameMinute : Prop :=
  t.now.year = t'.now.year ∧ t.now.month = t'.now.month ∧ t.now.day = t'.now.day ∧
    t.now.hour = t'.now.hour ∧ t.now.minute = t'.now.minute

variable {t t'}

/-- The first 17 bytes of the time are those of its minute. -/
theorem minuteText_eq_iff : t.minuteText = t'.minuteText ↔ t.SameMinute t' := by
  obtain ⟨-, hmonth, hday, hhour, hminute⟩ := t.length_fields
  obtain ⟨-, hmonth', hday', hhour', hminute'⟩ := t'.length_fields
  rw [minuteText, minuteText, List.append_left_inj,
    List.append_eq_append_iff_of_size_eq_right (hminute.trans hminute'.symm), List.append_left_inj,
    List.append_eq_append_iff_of_size_eq_right (hhour.trans hhour'.symm), List.append_left_inj,
    List.append_eq_append_iff_of_size_eq_right (hday.trans hday'.symm), List.append_left_inj,
    List.append_eq_append_iff_of_size_eq_right (hmonth.trans hmonth'.symm), List.append_left_inj,
    padded_eq_digits t.year_mem.1, padded_eq_digits t'.year_mem.1,
    Decimal.digits_injective.eq_iff, (padded_zeros_injective 2).eq_iff,
    (padded_zeros_injective 2).eq_iff, (padded_zeros_injective 2).eq_iff,
    (padded_zeros_injective 2).eq_iff, SameMinute]
  simp only [and_assoc]

variable (t t')

/-- The items are the time up to the minute, and the microseconds with a zero byte. -/
theorem formatTime_eq : formatTime t.now t.mirtime =
    [.SP t.minuteText, .SP (padded 48 6 t.micros ++ [0])] := by
  have hmicros : (padded 48 6 t.micros).length = 6 := length_padded (by decide) t.micros_lt
  have hfirst : (t.minuteText ++ padded 48 2 t.now.second).take 17 = t.minuteText :=
    List.take_left' t.length_minuteText
  have hlast : (padded 48 6 t.micros ++ List.replicate 26 0).take 7 =
      padded 48 6 t.micros ++ [0] := by
    rw [List.take_append, hmicros, List.take_of_length_le (by omega)]
    rfl
  rw [← hfirst, ← hlast]
  rfl

theorem text_eq_some (stray : UInt8) :
    t.text stray = some (t.minuteText ++ (padded 48 6 t.micros ++ [0])) := by
  have hlen := t.length_minuteText
  have hmicros : (padded 48 6 t.micros).length = 6 := length_padded (by decide) t.micros_lt
  have hroom : t.minuteText.length < LogStream.new.buffer_.avail := by
    rw [hlen]
    decide
  obtain ⟨s, hs, hdata⟩ := LogStream.exists_append hroom
  have hempty : LogStream.new.buffer_.data = [] := rfl
  rw [hempty, List.nil_append] at hdata
  have hfits : (padded 48 6 t.micros ++ [0]).length < s.buffer_.avail := by
    rw [FixedBuffer.avail, FixedBuffer.length, hdata, hlen, List.length_append, hmicros]
    decide
  obtain ⟨s', hs', hdata'⟩ := LogStream.exists_append hfits
  have hinsert : LogStream.new.insertAll stray (formatTime t.now t.mirtime) = some s' := by
    have hfirst : LogStream.new.insert stray (.SP t.minuteText) = some s := hs
    have hsecond : s.insert stray (.SP (padded 48 6 t.micros ++ [0])) = some s' := hs'
    rw [formatTime_eq, Impl.insertAll_cons, hfirst, Option.bind_some, Impl.insertAll_cons, hsecond]
    rfl
  rw [text, hinsert, Option.map_some, hdata', hdata]

/-- No two texts are faithful, since each contains a zero byte. They are equal exactly if the times
agree up to the minute and the microseconds agree. -/
theorem not_faithful (stray : UInt8) : ¬ t.Faithful t' stray ∧
    (t.text stray = t'.text stray ↔ t.SameMinute t' ∧ t.micros = t'.micros) := by
  constructor
  · intro h
    exact h.2.1 _ (t.text_eq_some stray) (by simp)
  · have hlen : t.minuteText.length = t'.minuteText.length :=
      t.length_minuteText.trans t'.length_minuteText.symm
    rw [text_eq_some, text_eq_some, Option.some.injEq,
      List.append_eq_append_iff_of_size_eq_left hlen, minuteText_eq_iff, List.append_left_inj,
      (padded_zeros_injective 6).eq_iff]

/-- Two records of one minute. -/
theorem text_eq_of_seconds :
    ∃ t t' : LogTime, t.now.second ≠ t'.now.second ∧ t.text 0 = t'.text 0 ∧
      t.text 0 = some (bytesOf "2024_09_26 19:34:000007" ++ [0]) ∧ ¬ t.Faithful t' 0 := by
  let t : LogTime := ⟨⟨2024, 9, 26, 19, 34, 49⟩, 7, by decide, by decide, by decide, by decide,
    by decide, by decide⟩
  let t' : LogTime := ⟨⟨2024, 9, 26, 19, 34, 50⟩, 7, by decide, by decide, by decide, by decide,
    by decide, by decide⟩
  have htext : t.text 0 = some (bytesOf "2024_09_26 19:34:000007" ++ [0]) :=
    (t.text_eq_some 0).trans (congrArg some (by decide +kernel))
  have htext' : t'.text 0 = some (bytesOf "2024_09_26 19:34:000007" ++ [0]) :=
    (t'.text_eq_some 0).trans (congrArg some (by decide +kernel))
  exact ⟨t, t', by decide, htext.trans htext'.symm, htext, fun h => h.2.1 _ htext (by decide)⟩

end LogTime

end TinyMuduo
