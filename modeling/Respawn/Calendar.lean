import Mathlib.Logic.Function.Iterate

/-!
# The Gregorian calendar by day counts

The proleptic Gregorian calendar as its own rule gives it: which years are
leap, how long a month is, and which date follows a date.  `Date.after d n` is
the date `n` days after `d`, by taking the next date `n` times; nothing else is
assumed about day counts.

The second half is the closed form.  A year that begins in March has its leap
day at its end, so a date is a March year and a day of it (`Date.FallsOn`).
The day count at which March year `y` begins is `marchStart y`, and
`marchYear_of_count` inverts it with nested truncating divisions: the quotient
by the 400-year period, then one quotient that three correction terms make
exact at the 4, 100 and 400-year boundaries.
-/

namespace Calendar

/-- Every fourth year is leap, but a century only every 400 years. -/
def IsLeap (y : Nat) : Prop := y % 4 = 0 ∧ (y % 100 ≠ 0 ∨ y % 400 = 0)

instance (y : Nat) : Decidable (IsLeap y) := by
  unfold IsLeap; infer_instance

def leapDays (y : Nat) : Nat := if IsLeap y then 1 else 0

/-- The number of days of month `m` of year `y`. -/
def daysInMonth (y m : Nat) : Nat :=
  if m = 2 then 28 + leapDays y
  else if m = 4 ∨ m = 6 ∨ m = 9 ∨ m = 11 then 30
  else 31

theorem daysInMonth_pos (y m : Nat) : 1 ≤ daysInMonth y m := by
  grind [daysInMonth]

/-- A date of the proleptic Gregorian calendar. -/
@[ext]
structure Date where
  year : Nat
  month : Nat
  day : Nat
  month_pos : 1 ≤ month
  month_le : month ≤ 12
  day_pos : 1 ≤ day
  day_le : day ≤ daysInMonth year month
  deriving DecidableEq

/-- The date of the following day. -/
def Date.next (d : Date) : Date :=
  if h : d.day < daysInMonth d.year d.month then
    ⟨d.year, d.month, d.day + 1, d.month_pos, d.month_le, by omega, h⟩
  else if h : d.month < 12 then
    ⟨d.year, d.month + 1, 1, by omega, h, by omega, daysInMonth_pos _ _⟩
  else
    ⟨d.year + 1, 1, 1, by omega, by omega, by omega, daysInMonth_pos _ _⟩

theorem Date.next_within {d : Date} (h : d.day < daysInMonth d.year d.month) :
    d.next.year = d.year ∧ d.next.month = d.month ∧ d.next.day = d.day + 1 := by
  simp [Date.next, h]

/-- The day after the last of a month is a first. -/
theorem Date.next_over {d : Date} (h : ¬ d.day < daysInMonth d.year d.month) :
    d.next.year = (if d.month < 12 then d.year else d.year + 1) ∧
      d.next.month = (if d.month < 12 then d.month + 1 else 1) ∧ d.next.day = 1 := by
  simp only [Date.next, h, dite_false]
  split <;> simp

/-- The date `n` days after `d`. -/
def Date.after (d : Date) (n : Nat) : Date := Date.next^[n] d

@[simp] theorem Date.after_zero (d : Date) : d.after 0 = d := rfl

theorem Date.after_succ (d : Date) (n : Nat) : d.after (n + 1) = (d.after n).next :=
  Function.iterate_succ_apply' Date.next n d

/-- 1970-01-01. -/
def epoch : Date := ⟨1970, 1, 1, by decide, by decide, by decide, by decide⟩

/-! ## March years -/

/-- Days from the start of March year 0 to the start of March year `y`. -/
def marchStart (y : Nat) : Nat := 365 * y + y / 4 - y / 100 + y / 400

/-- Days of the March year that begins in year `y`: its leap day, if any, is
the last day and lies in the next calendar year. -/
def marchLength (y : Nat) : Nat := 365 + leapDays (y + 1)

/-- A year that starts in March starts where the one before ends. -/
theorem marchStart_succ (y : Nat) : marchStart (y + 1) = marchStart y + marchLength y := by
  unfold marchStart marchLength
  by_cases hleap : IsLeap (y + 1)
  · have hdays : leapDays (y + 1) = 1 := if_pos hleap
    obtain ⟨hfour, hcentury | hera⟩ := hleap
    · omega
    · omega
  · have hdays : leapDays (y + 1) = 0 := if_neg hleap
    by_cases hfour : (y + 1) % 4 = 0
    · have hcentury : (y + 1) % 100 = 0 ∧ (y + 1) % 400 ≠ 0 := by
        unfold IsLeap at hleap
        omega
      omega
    · have hquotients : (y + 1) / 4 = y / 4 ∧ (y + 1) / 100 = y / 100 ∧
          (y + 1) / 400 = y / 400 := ⟨by omega, by omega, by omega⟩
      obtain ⟨hfour', hcentury', hera'⟩ := hquotients
      rw [hfour', hcentury', hera', hdays]
      omega

/-- The month of the March year, counted from 0, in which day `r` lies. -/
def marchMonth (r : Nat) : Nat := (5 * r + 2) / 153

/-- The first day of a month of the March year. -/
def monthStart (mp : Nat) : Nat := (153 * mp + 2) / 5

/-- The calendar month of a month of the March year. -/
def calendarMonth (mp : Nat) : Nat := if mp < 10 then mp + 3 else mp - 9

/-- The calendar year of a month of a March year. -/
def calendarYear (y m : Nat) : Nat := if m ≤ 2 then y + 1 else y

/-- `d` is day `r` of March year `y`. -/
structure Date.FallsOn (d : Date) (y r : Nat) : Prop where
  inside : r < marchLength y
  month : d.month = calendarMonth (marchMonth r)
  day : d.day = r - monthStart (marchMonth r) + 1
  year : d.year = calendarYear y d.month

theorem marchMonth_le {y r : Nat} (h : r < marchLength y) : marchMonth r ≤ 11 := by
  grind [marchLength, leapDays, marchMonth]

/-- A day of a month of the March year is at most its last exactly while the
next month has not begun. -/
theorem marchMonth_bounds (r : Nat) :
    monthStart (marchMonth r) ≤ r ∧ r < monthStart (marchMonth r + 1) := by
  constructor
  · grind [monthStart, marchMonth]
  · grind [monthStart, marchMonth]

/-- The months of the March year have the lengths of the calendar's; February is
cut off by the end of the year. -/
theorem daysInMonth_calendar {y mp : Nat} (h : mp ≤ 11) :
    daysInMonth (calendarYear y (calendarMonth mp)) (calendarMonth mp) =
      min (monthStart (mp + 1)) (marchLength y) - monthStart mp := by
  by_cases hlast : mp = 11
  · subst hlast
    grind [daysInMonth, calendarMonth, calendarYear, marchLength, monthStart, leapDays]
  · have hbegun : monthStart (mp + 1) ≤ marchLength y := by
      grind [monthStart, marchLength]
    rw [Nat.min_eq_left hbegun]
    obtain rfl | rfl | rfl | rfl | rfl | rfl | rfl | rfl | rfl | rfl | rfl : mp = 0 ∨ mp = 1 ∨
        mp = 2 ∨ mp = 3 ∨ mp = 4 ∨ mp = 5 ∨ mp = 6 ∨ mp = 7 ∨ mp = 8 ∨ mp = 9 ∨ mp = 10 := by
      omega
    all_goals rfl

/-- A day of the March year is the last of its month exactly when a month or
the year ends with it. -/
theorem Date.FallsOn.day_lt_iff {d : Date} {y r : Nat} (h : d.FallsOn y r) :
    d.day < daysInMonth d.year d.month ↔
      r + 1 < min (monthStart (marchMonth r + 1)) (marchLength y) := by
  have hlower := (marchMonth_bounds r).1
  rw [h.year, h.month, daysInMonth_calendar (marchMonth_le h.inside), h.day]
  omega

theorem marchMonth_succ_of_lt {r : Nat} (h : r + 1 < monthStart (marchMonth r + 1)) :
    marchMonth (r + 1) = marchMonth r := by
  grind [monthStart, marchMonth]

theorem marchMonth_succ_of_eq {r : Nat} (h : r + 1 = monthStart (marchMonth r + 1)) :
    marchMonth (r + 1) = marchMonth r + 1 := by
  grind [monthStart, marchMonth]

/-- The next day, while the March year lasts. -/
theorem Date.FallsOn.next {d : Date} {y r : Nat} (h : d.FallsOn y r)
    (hlast : r + 1 < marchLength y) : d.next.FallsOn y (r + 1) := by
  have hbounds := marchMonth_bounds r
  have hiff := h.day_lt_iff
  by_cases hmonth : r + 1 < monthStart (marchMonth r + 1)
  · have hday : d.day < daysInMonth d.year d.month := hiff.mpr (by omega)
    have hsame := marchMonth_succ_of_lt hmonth
    obtain ⟨hyear, hmonth, hnext⟩ := Date.next_within hday
    refine ⟨hlast, ?_, ?_, ?_⟩
    · rw [hmonth, hsame, h.month]
    · rw [hnext, hsame, h.day]
      omega
    · rw [hyear, hmonth, h.year]
  · -- the month ends, and its successor of the March year begins
    have hend : r + 1 = monthStart (marchMonth r + 1) := by omega
    have hday : ¬ d.day < daysInMonth d.year d.month := by
      intro hday
      have := hiff.mp hday
      omega
    have hlater := marchMonth_succ_of_eq hend
    have hmp : marchMonth (r + 1) ≤ 11 := marchMonth_le hlast
    have hcal := h.month
    obtain ⟨hyear, hfollows, hfirst⟩ := Date.next_over hday
    refine ⟨hlast, ?_, ?_, ?_⟩
    · rw [hfollows]
      grind [calendarMonth]
    · rw [hfirst, hlater]
      omega
    · rw [hyear, hfollows, h.year]
      grind [calendarMonth, calendarYear]

/-- The day after the last of a March year is the first of the next one. -/
theorem Date.FallsOn.next_year {d : Date} {y r : Nat} (h : d.FallsOn y r)
    (hlast : r + 1 = marchLength y) : d.next.FallsOn (y + 1) 0 := by
  have hmp : marchMonth r = 11 := by
    grind [marchLength, leapDays, marchMonth]
  have hmonth : d.month = 2 := by
    rw [h.month, hmp]
    rfl
  have hday : ¬ d.day < daysInMonth d.year d.month := by
    intro hday
    have := h.day_lt_iff.mp hday
    omega
  obtain ⟨hyear, hfollows, hfirst⟩ := Date.next_over hday
  rw [hmonth] at hyear hfollows
  refine ⟨by grind [marchLength], hfollows, hfirst, ?_⟩
  rw [hyear, hfollows, h.year, hmonth]
  rfl

/-- **Counting days in March years.**  The date `n` days after day `r` of March
year `y` is the day of the March year that the same count reaches. -/
theorem Date.FallsOn.after {d : Date} {y r : Nat} (h : d.FallsOn y r) (n : Nat) :
    ∃ y' r', (d.after n).FallsOn y' r' ∧ marchStart y' + r' = marchStart y + r + n := by
  induction n with
  | zero => exact ⟨y, r, h, rfl⟩
  | succ n ih =>
      obtain ⟨y', r', hfalls, hcount⟩ := ih
      rw [Date.after_succ]
      by_cases hlast : r' + 1 < marchLength y'
      · exact ⟨y', r' + 1, hfalls.next hlast, by omega⟩
      · have hend : r' + 1 = marchLength y' := by
          have := hfalls.inside
          omega
        refine ⟨y' + 1, 0, hfalls.next_year hend, ?_⟩
        have := marchStart_succ y'
        omega

/-! ## The closed form -/

/-- Days from the start of a 400-year period to the start of its year `yoe`. -/
def eraStart (yoe : Nat) : Nat := 365 * yoe + yoe / 4 - yoe / 100

/-- The year of the era by truncating division: the corrections take the leap
days out of the count, so that what is left divides by 365. -/
def yearOfEra (doe : Nat) : Nat := (doe - doe / 1460 + doe / 36524 - doe / 146096) / 365

/-- **The corrected quotient is exact.**  For every day of every year of the
period the truncating division gives that year.  With the year written as
`100 c + 4 q + s`, the first correction counts `25 c + q` leap days, and one
more (`k`) in the last year of four from some day on; the other two count the
`c` centuries, the last day of the period included. -/
theorem yearOfEra_eq {yoe r : Nat} (hyear : yoe < 400) (h : r < marchLength yoe) :
    yearOfEra (eraStart yoe + r) = yoe := by
  obtain ⟨c, q, s, hc, hq, hs, hsplit⟩ :
      ∃ c q s, c < 4 ∧ q < 25 ∧ s < 4 ∧ yoe = 100 * c + 4 * q + s :=
    ⟨yoe / 100, yoe % 100 / 4, yoe % 4, by omega, by omega, by omega, by omega⟩
  have hlast : r < 365 ∨ r = 365 ∧ s = 3 ∧ (q < 24 ∨ c = 3) := by
    grind [marchLength, leapDays, IsLeap]
  obtain ⟨doe, hdoe⟩ : ∃ doe, doe = eraStart yoe + r := ⟨_, rfl⟩
  have hlinear : doe = 36524 * c + 1461 * q + 365 * s + r := by
    grind [eraStart]
  have hcentury : 1461 * q + 365 * s + r < 36524 ∨ c = 3 ∧ doe = 146096 := by omega
  have hcenturies : doe / 36524 = c + doe / 146096 := by
    obtain hin | ⟨rfl, rfl⟩ := hcentury
    · have hquot : doe / 36524 = c := by omega
      have hzero : doe / 146096 = 0 := by omega
      omega
    · rfl
  obtain ⟨k, hk⟩ : ∃ k, k = (24 * c + q + 365 * s + r) / 1460 := ⟨_, rfl⟩
  have hleap : doe / 1460 = 25 * c + q + k := by omega
  have hrest : k ≤ r ∧ r - k < 365 := by omega
  have hsum : doe - doe / 1460 + doe / 36524 - doe / 146096 =
      365 * (100 * c + 4 * q + s) + (r - k) := by omega
  rw [← hdoe, yearOfEra, hsum, hsplit]
  omega

/-- A March year of any period starts that many whole periods later. -/
theorem marchStart_era (e : Nat) {yoe : Nat} (h : yoe < 400) :
    marchStart (400 * e + yoe) = 146097 * e + eraStart yoe := by
  have hfour : (400 * e + yoe) / 4 = 100 * e + yoe / 4 := by omega
  have hcentury : (400 * e + yoe) / 100 = 4 * e + yoe / 100 := by omega
  have hera : (400 * e + yoe) / 400 = e := by omega
  unfold marchStart eraStart
  rw [hfour, hcentury, hera]
  omega

theorem marchLength_era (e yoe : Nat) : marchLength (400 * e + yoe) = marchLength yoe := by
  grind [marchLength, leapDays, IsLeap]

/-- A day of a year of the period lies in the period. -/
theorem eraStart_add_lt {yoe r : Nat} (hyear : yoe < 400) (h : r < marchLength yoe) :
    eraStart yoe + r < 146097 := by
  grind [eraStart, marchLength, leapDays, IsLeap]

/-- **The March year of a day count.**  The count that reaches day `r` of March
year `y` gives back the period, the year of the period and the day. -/
theorem marchYear_of_count {z y r : Nat} (hcount : z = marchStart y + r) (h : r < marchLength y) :
    z / 146097 = y / 400 ∧ yearOfEra (z % 146097) = y % 400 ∧
      z % 146097 = eraStart (y % 400) + r := by
  have hyear : y % 400 < 400 := Nat.mod_lt _ (by omega)
  have hsplit : y = 400 * (y / 400) + y % 400 := (Nat.div_add_mod y 400).symm
  have hstart : marchStart y = 146097 * (y / 400) + eraStart (y % 400) := by
    rw [← marchStart_era _ hyear, ← hsplit]
  have hlength : r < marchLength (y % 400) := by
    rw [hsplit, marchLength_era] at h
    exact h
  have hin := eraStart_add_lt hyear hlength
  have hdoe : z % 146097 = eraStart (y % 400) + r := by omega
  refine ⟨by omega, ?_, hdoe⟩
  rw [hdoe]
  exact yearOfEra_eq hyear hlength

/-! ## The day count from the epoch -/

/-- 1970-01-01 is day 306 of the March year 1969. -/
theorem epoch_fallsOn : epoch.FallsOn 1969 306 :=
  ⟨by decide, rfl, rfl, rfl⟩

/-- **Days after the epoch.**  The date `n` days after 1970-01-01 is the day of
the March year that the count `n + 719468` reaches. -/
theorem epoch_after (n : Nat) :
    ∃ y r, (epoch.after n).FallsOn y r ∧ n + 719468 = marchStart y + r := by
  obtain ⟨y, r, hfalls, hcount⟩ := epoch_fallsOn.after n
  refine ⟨y, r, hfalls, ?_⟩
  have hepoch : marchStart 1969 + 306 = 719468 := rfl
  omega

end Calendar
