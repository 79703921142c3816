import Mathlib

/-!
# A calendar clock

A clock that shows a date of a century and a time of day, and goes on second by second.

* `Calendar`        only dates and times that exist;
* `tick`, `after`   one second later, and `n` seconds later;
* `second_after`    the seconds count modulo 60, whatever else rolls over;
* `after_eq`        so within a minute they tell whether the clock has moved.
-/

/-- the days of a month; from 2000 to 2099 every fourth year is a leap year -/
def daysIn (year month : Nat) : Nat :=
  if month = 2 then if year % 4 = 0 then 29 else 28
  else if month = 4 ∨ month = 6 ∨ month = 9 ∨ month = 11 then 30
  else 31

theorem one_le_daysIn (year month : Nat) : 1 ≤ daysIn year month := by
  unfold daysIn
  split
  · split
    · decide
    · decide
  · split
    · decide
    · decide

theorem daysIn_le (year month : Nat) : daysIn year month ≤ 31 := by
  unfold daysIn
  split
  · split
    · decide
    · decide
  · split
    · decide
    · decide

structure Calendar where
  year : Nat
  month : Nat
  day : Nat
  hour : Nat
  minute : Nat
  second : Nat
  year_lt : year < 100
  month_mem : 1 ≤ month ∧ month ≤ 12
  day_mem : 1 ≤ day ∧ day ≤ daysIn year month
  hour_lt : hour < 24
  minute_lt : minute < 60
  second_lt : second < 60
deriving DecidableEq

namespace Calendar

/-- the next midnight -/
def nextDay (c : Calendar) : Calendar :=
  if h : c.day < daysIn c.year c.month then
    { c with
      day := c.day + 1, hour := 0, minute := 0, second := 0
      day_mem := ⟨Nat.le_add_left 1 c.day, h⟩
      hour_lt := by decide
      minute_lt := by decide
      second_lt := by decide }
  else if h : c.month < 12 then
    { c with
      month := c.month + 1, day := 1, hour := 0, minute := 0, second := 0
      month_mem := ⟨Nat.le_add_left 1 c.month, h⟩
      day_mem := ⟨Nat.le_refl 1, one_le_daysIn _ _⟩
      hour_lt := by decide
      minute_lt := by decide
      second_lt := by decide }
  else
    { year := (c.year + 1) % 100, month := 1, day := 1, hour := 0, minute := 0, second := 0
      year_lt := Nat.mod_lt _ (by decide)
      month_mem := by decide
      day_mem := ⟨Nat.le_refl 1, one_le_daysIn _ _⟩
      hour_lt := by decide
      minute_lt := by decide
      second_lt := by decide }

def nextHour (c : Calendar) : Calendar :=
  if h : c.hour + 1 < 24 then
    { c with
      hour := c.hour + 1, minute := 0, second := 0
      hour_lt := h
      minute_lt := by decide
      second_lt := by decide }
  else c.nextDay

def nextMinute (c : Calendar) : Calendar :=
  if h : c.minute + 1 < 60 then
    { c with
      minute := c.minute + 1, second := 0
      minute_lt := h
      second_lt := by decide }
  else c.nextHour

def tick (c : Calendar) : Calendar :=
  if h : c.second + 1 < 60 then { c with second := c.second + 1, second_lt := h } else c.nextMinute

/-- `n` seconds later -/
def after (c : Calendar) (n : Nat) : Calendar := tick^[n] c

theorem second_nextDay (c : Calendar) : c.nextDay.second = 0 := by
  unfold nextDay
  split
  · rfl
  · split
    · rfl
    · rfl

theorem second_nextHour (c : Calendar) : c.nextHour.second = 0 := by
  unfold nextHour
  split
  · rfl
  · exact c.second_nextDay

theorem second_nextMinute (c : Calendar) : c.nextMinute.second = 0 := by
  unfold nextMinute
  split
  · rfl
  · exact c.second_nextHour

theorem second_tick (c : Calendar) : c.tick.second = (c.second + 1) % 60 := by
  have hlt := c.second_lt
  unfold tick
  split
  · show c.second + 1 = _
    omega
  · rw [c.second_nextMinute]
    omega

theorem second_after (c : Calendar) (n : Nat) : (c.after n).second = (c.second + n) % 60 := by
  induction n with
  | zero => exact (Nat.mod_eq_of_lt c.second_lt).symm
  | succ n ih =>
    unfold after at ih ⊢
    rw [Function.iterate_succ_apply', second_tick, ih]
    omega

/-- less than a minute apart, with the same second on the clock: at the same time -/
theorem after_eq {c : Calendar} {m n : Nat} (hmn : m ≤ n) (hn : n < m + 60)
    (h : (c.after m).second = (c.after n).second) : m = n := by
  rw [second_after, second_after] at h
  omega

end Calendar
