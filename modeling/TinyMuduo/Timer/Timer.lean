import Mathlib.Data.Prod.Lex
import Mathlib.Data.Rat.Floor
import TinyMuduo.Library.OrderedSet
import TinyMuduo.Library.RoundEven

/-!
# Timers

This file embeds `resoure/Timestamp.h`, `resoure/Timer.h`, `resoure/Timerid.h` and the arithmetic of
`resoure/TimerQueue.cpp`. The address of a `Timer` is a number; the addresses order the timers with
the same expiration.

A `Timestamp` is the number that it holds. `Timestamp::now` gives seconds, while
`Timestamp::addTime` adds microseconds and `howMuchTimeFromNow` takes a difference for microseconds.
An interval is a `double`, which is a rational number, and the product of `addTime` is rounded as
one of two `double`s. The exponent of the product is not bounded: what is too small for a `double`
is truncated to zero, and what is too large does not fit into 64 bits. The counter `s_numCreated` is
a natural number: it does not come to the end of its 63 bits.

## Main definitions

* `addTime`, `howMuchTimeFromNow`, `Timespec.Arms`.
* `Timer`, `Timer.new`, `Timer.restart`.
* `TimerId`, `Entry`: the elements of the sets of a `TimerQueue`, with their orders.

## Main results

* `addTime_natCast`: whole seconds are not rounded, up to 285 years.
* `le_addTime`: time does not go back.
* `howMuchTimeFromNow_arms`: what `timerfd_settime` is called with.
-/

namespace TinyMuduo

/-- `Timestamp::kMicroSecondsPerSecond`. -/
def kMicroSecondsPerSecond : ℤ := 1000 * 1000

/-- The conversion of a `double` to an integer. -/
def truncate (x : ℚ) : ℤ := x.num.tdiv x.den

/-- `Timestamp::addTime`: the product is a `double`, of 53 bits. -/
def addTime (timestamp : ℤ) (second : ℚ) : ℤ :=
  timestamp + truncate (RoundEven.toPrecision 53 (second * kMicroSecondsPerSecond))

theorem truncate_of_nonneg {x : ℚ} (h : 0 ≤ x) : truncate x = ⌊x⌋ := by
  rw [truncate, Rat.floor_def', Int.tdiv_eq_ediv_of_nonneg (Rat.num_nonneg.mpr h)]

/-- Whole seconds are not rounded. -/
theorem addTime_natCast (timestamp : ℤ) (d : ℕ) (h : d * 10 ^ 6 < 2 ^ 53) :
    addTime timestamp d = timestamp + d * kMicroSecondsPerSecond := by
  have hproduct : (d : ℚ) * kMicroSecondsPerSecond = ((d * kMicroSecondsPerSecond : ℤ) : ℚ) := by
    push_cast
    rfl
  have hbits : |d * kMicroSecondsPerSecond| < 2 ^ 53 := by
    rw [kMicroSecondsPerSecond, abs_of_nonneg (by omega)]
    omega
  rw [addTime, hproduct, RoundEven.toPrecision_intCast _ hbits, truncate, Rat.num_intCast,
    Rat.den_intCast, Nat.cast_one, Int.tdiv_one]

@[simp] theorem addTime_zero (timestamp : ℤ) : addTime timestamp 0 = timestamp := by
  simpa using addTime_natCast timestamp 0 (by decide)

/-- A delay moves the expiration by at least as many units as it has seconds. -/
theorem add_floor_le_addTime (timestamp : ℤ) {second : ℚ} (h : 0 ≤ second) :
    timestamp + ⌊second⌋ ≤ addTime timestamp second := by
  have hproduct : 0 ≤ second * kMicroSecondsPerSecond :=
    mul_nonneg h (Int.cast_nonneg (by decide))
  have hround := RoundEven.half_le_toPrecision (p := 53) (by decide) hproduct
  have hsecond : second ≤ second * kMicroSecondsPerSecond / 2 := by
    rw [kMicroSecondsPerSecond]
    push_cast
    linarith
  have hfloor := Int.floor_mono (hsecond.trans hround)
  rw [addTime, truncate_of_nonneg (h.trans (hsecond.trans hround))]
  omega

theorem le_addTime (timestamp : ℤ) {second : ℚ} (h : 0 ≤ second) :
    timestamp ≤ addTime timestamp second := by
  have hfloor := Int.floor_nonneg.mpr h
  have hadd := add_floor_le_addTime timestamp h
  omega

-- the `double` 9.001 is 5067112530745229 / 2 ^ 49, and its exact product is below 9001000
example : addTime 0 (RoundEven.toPrecision 53 (9001 / 1000)) = 9001000 := by decide +kernel

/-- A `timespec`. -/
structure Timespec where
  tv_sec : ℤ
  tv_nsec : ℤ
  deriving DecidableEq

/-- `howMuchTimeFromNow`, with what `Timestamp::now` returns. -/
def howMuchTimeFromNow (when_ now : ℤ) : Timespec :=
  let time_ := max (when_ - now) 100
  ⟨time_.tdiv kMicroSecondsPerSecond, time_.tmod kMicroSecondsPerSecond * 1000⟩

/-- A `timespec` that arms a timer: it is not zero, and its nanoseconds are in range. -/
def Timespec.Arms (t : Timespec) : Prop :=
  (t.tv_sec ≠ 0 ∨ t.tv_nsec ≠ 0) ∧ 0 ≤ t.tv_sec ∧ 0 ≤ t.tv_nsec ∧ t.tv_nsec < 10 ^ 9

/-- Every timer is armed for 100 microseconds at least. -/
theorem howMuchTimeFromNow_arms (when_ now : ℤ) : (howMuchTimeFromNow when_ now).Arms := by
  have htime : 100 ≤ max (when_ - now) 100 := le_max_right _ _
  simp only [howMuchTimeFromNow, Timespec.Arms, kMicroSecondsPerSecond]
  generalize max (when_ - now) 100 = time_ at htime
  rw [Int.tdiv_eq_ediv_of_nonneg (by omega), Int.tmod_eq_emod_of_nonneg (by omega)]
  omega

/-! ### Timers and the elements of the sets -/

/-- The address of a `Timer`. -/
abbrev Addr := ℕ

/-- The class `Timer`, with callbacks of type `C`. `serial` numbers the timers in the order of their
construction, and `registered` is the time that the constructor was given. -/
structure Timer (C : Type) where
  callback_ : C
  expiration_ : ℤ
  interval_ : ℚ
  repeat_ : Bool
  sequence_ : ℕ
  serial : ℕ
  registered : ℤ

namespace Timer

variable {C : Type}

/-- The constructor, with what it has loaded from `s_numCreated`. -/
def new (cb : C) (when_ : ℤ) (interval : ℚ) (s_numCreated serial : ℕ) : Timer C :=
  ⟨cb, when_, interval, decide (0 < when_), s_numCreated, serial, when_⟩

/-- `Timer::restart`. -/
def restart (t : Timer C) (now : ℤ) : Timer C :=
  if t.repeat_ then { t with expiration_ := addTime now t.interval_ }
  else { t with expiration_ := 0 }

end Timer

/-- The class `TimerId`, and the pair `ActiveTimer` of the same data. -/
structure TimerId where
  timer_ : Addr
  sequence_ : ℕ
  deriving DecidableEq

/-- The pair `Entry` of an expiration and a timer. -/
structure Entry where
  when_ : ℤ
  timer : Addr
  deriving DecidableEq

/-- Pairs are ordered by their first components, and then by the second ones. -/
instance : LinearOrder TimerId :=
  LinearOrder.lift' (fun id => toLex (id.timer_, id.sequence_)) fun
    | ⟨_, _⟩, ⟨_, _⟩, rfl => rfl

instance : LinearOrder Entry :=
  LinearOrder.lift' (fun e => toLex (e.when_, e.timer)) fun
    | ⟨_, _⟩, ⟨_, _⟩, rfl => rfl

theorem Entry.le_iff {e f : Entry} :
    e ≤ f ↔ e.when_ < f.when_ ∨ e.when_ = f.when_ ∧ e.timer ≤ f.timer :=
  Prod.Lex.toLex_le_toLex

/-- The order of the entries is an order of their expirations. -/
theorem Entry.when_le {e f : Entry} (h : e ≤ f) : e.when_ ≤ f.when_ := by
  rcases Entry.le_iff.mp h with hlt | ⟨heq, -⟩
  · exact hlt.le
  · exact heq.le

example : (((OrderedSet.empty.insert (⟨5, 2⟩ : Entry)).1.insert ⟨5, 1⟩).1.insert ⟨3, 9⟩).1.toList =
    [⟨3, 9⟩, ⟨5, 1⟩, ⟨5, 2⟩] := by
  decide +kernel

end TinyMuduo
