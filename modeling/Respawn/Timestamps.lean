import Respawn.Basic
import Respawn.Calendar

/-!
# The timestamps of the log

`log` and `show` print the creation time of a manifest, which a peer may have
set to any `u64`.  `chronoTs` formats it without a calendar library, by the
closed form of `daysToYmd`.  Arithmetic is `u64` arithmetic as a build with
overflow checks does it: an operation whose result is out of range has no
value, so a function that returns has not overflowed.

`daysToYmd_shows` says that on the day counts in its range the closed form is
the date that many days after the epoch, and `daysToYmd_eq_none_iff` that the
range ends only where the shift to the March calendar overflows; `chronoTs_date`
is what follows for every number of seconds.
-/

namespace Respawn

open ByteStr Calendar

/-! ## Checked arithmetic -/

def checkedAdd (a b : UInt64) : Option UInt64 :=
  if a.toNat + b.toNat < 2 ^ 64 then some (a + b) else none

def checkedSub (a b : UInt64) : Option UInt64 :=
  if b.toNat ≤ a.toNat then some (a - b) else none

def checkedMul (a b : UInt64) : Option UInt64 :=
  if a.toNat * b.toNat < 2 ^ 64 then some (a * b) else none

theorem checkedAdd_some {a b : UInt64} (h : a.toNat + b.toNat < 2 ^ 64) :
    ∃ c, checkedAdd a b = some c ∧ c.toNat = a.toNat + b.toNat := by
  refine ⟨a + b, if_pos h, ?_⟩
  rw [UInt64.toNat_add, Nat.mod_eq_of_lt h]

theorem checkedSub_some {a b : UInt64} (h : b.toNat ≤ a.toNat) :
    ∃ c, checkedSub a b = some c ∧ c.toNat = a.toNat - b.toNat :=
  ⟨a - b, if_pos h, UInt64.toNat_sub_of_le a b h⟩

theorem checkedMul_some {a b : UInt64} (h : a.toNat * b.toNat < 2 ^ 64) :
    ∃ c, checkedMul a b = some c ∧ c.toNat = a.toNat * b.toNat := by
  refine ⟨a * b, if_pos h, ?_⟩
  rw [UInt64.toNat_mul, Nat.mod_eq_of_lt h]

/-! ## The functions -/

/-- The date `days` days after the epoch, by the civil-from-days algorithm. -/
def daysToYmd (days : UInt64) : Option (UInt64 × UInt64 × UInt64) := do
  let days ← checkedAdd days 719468
  let era := days / 146097
  let doe := days % 146097
  let yoe := (← checkedSub
    (← checkedAdd (← checkedSub doe (doe / 1460)) (doe / 36524)) (doe / 146096)) / 365
  let y ← checkedAdd yoe (← checkedMul era 400)
  let doy ← checkedSub doe
    (← checkedSub (← checkedAdd (← checkedMul 365 yoe) (yoe / 4)) (yoe / 100))
  let mp := (← checkedAdd (← checkedMul 5 doy) 2) / 153
  let d ← checkedAdd
    (← checkedSub doy ((← checkedAdd (← checkedMul 153 mp) 2) / 5)) 1
  let m ← (if mp < 10 then checkedAdd mp 3 else checkedSub mp 9)
  let y ← (if m ≤ 2 then checkedAdd y 1 else some y)
  return (y, m, d)

/-- `{n:0w}`: the number in decimal, with zeros before it up to `w` digits. -/
def padded (w n : Nat) : Bytes :=
  List.replicate (w - (decimal n).length) 48 ++ decimal n

/-- `secs` seconds after the epoch, as a UTC date and time. -/
def chronoTs (secs : UInt64) : Option Bytes := do
  let days := secs / 86400
  let rem := secs % 86400
  let (y, mo, d) ← daysToYmd days
  return padded 4 y.toNat ++ str "-" ++ padded 2 mo.toNat ++ str "-" ++ padded 2 d.toNat ++
    str " " ++ padded 2 (rem / 3600).toNat ++ str ":" ++
    padded 2 (rem % 3600 / 60).toNat ++ str ":" ++ padded 2 (rem % 60).toNat ++ str "Z"

/-! ## The date of a timestamp -/

/-- The result is the date `date`, in the fields' own order. -/
def IsDate (result : Option (UInt64 × UInt64 × UInt64)) (date : Date) : Prop :=
  ∃ y m d, result = some (y, m, d) ∧
    y.toNat = date.year ∧ m.toNat = date.month ∧ d.toNat = date.day

/-- A date and a second of that day, as the log prints them. -/
def utcText (date : Date) (time : Nat) : Bytes :=
  padded 4 date.year ++ str "-" ++ padded 2 date.month ++ str "-" ++ padded 2 date.day ++
    str " " ++ padded 2 (time / 3600) ++ str ":" ++
    padded 2 (time % 3600 / 60) ++ str ":" ++ padded 2 (time % 60) ++ str "Z"

/-- The year and the day of the March year, from the shifted day count. -/
def marchYearOf (z : UInt64) : Option (UInt64 × UInt64) := do
  let era := z / 146097
  let doe := z % 146097
  let yoe := (← checkedSub
    (← checkedAdd (← checkedSub doe (doe / 1460)) (doe / 36524)) (doe / 146096)) / 365
  let y ← checkedAdd yoe (← checkedMul era 400)
  let doy ← checkedSub doe
    (← checkedSub (← checkedAdd (← checkedMul 365 yoe) (yoe / 4)) (yoe / 100))
  return (y, doy)

/-- The date of a day of a March year. -/
def dateOf (y doy : UInt64) : Option (UInt64 × UInt64 × UInt64) := do
  let mp := (← checkedAdd (← checkedMul 5 doy) 2) / 153
  let d ← checkedAdd
    (← checkedSub doy ((← checkedAdd (← checkedMul 153 mp) 2) / 5)) 1
  let m ← (if mp < 10 then checkedAdd mp 3 else checkedSub mp 9)
  let y ← (if m ≤ 2 then checkedAdd y 1 else some y)
  return (y, m, d)

/-- A bind that ends a first part and starts a second one can be taken apart. -/
theorem bind_split {α β γ : Type} {x : Option α} {f : α → Option β} {g : β → Option γ}
    {k : α → Option γ} (h : ∀ a, k a = (f a).bind g) : (x >>= k) = (x >>= f).bind g := by
  cases x with
  | none => rfl
  | some a => exact h a

/-- The date of a day is found in two steps, the year and the day in it. -/
theorem daysToYmd_eq (days : UInt64) :
    daysToYmd days = (checkedAdd days 719468).bind fun z =>
      (marchYearOf z).bind fun year => dateOf year.1 year.2 := by
  unfold daysToYmd marchYearOf
  refine Option.bind_congr fun z _ => ?_
  -- one step for each checked operation of `marchYearOf`
  iterate 9 refine bind_split fun _ => ?_
  rfl

/-- The first step finds the year and the day in it. -/
theorem marchYearOf_some {z : UInt64} {year r : Nat} (hcount : z.toNat = marchStart year + r)
    (hr : r < marchLength year) :
    ∃ y doy, marchYearOf z = some (y, doy) ∧ y.toNat = year ∧ doy.toNat = r := by
  obtain ⟨hera, hyear, hdoe⟩ := marchYear_of_count hcount hr
  have hz := z.toNat_lt
  have hin : z.toNat % 146097 < 146097 := Nat.mod_lt _ (by omega)
  obtain ⟨doe, hd⟩ : ∃ doe, doe = z % 146097 := ⟨_, rfl⟩
  obtain ⟨era, he⟩ : ∃ era, era = z / 146097 := ⟨_, rfl⟩
  have hdn : doe.toNat = z.toNat % 146097 := by rw [hd]; rfl
  have hen : era.toNat = z.toNat / 146097 := by rw [he]; rfl
  obtain ⟨a, ha, han⟩ := checkedSub_some (a := doe) (b := doe / 1460) (by simp; omega)
  obtain ⟨b, hb, hbn⟩ := checkedAdd_some (a := a) (b := doe / 36524) (by simp; omega)
  obtain ⟨c, hc, hcn⟩ := checkedSub_some (a := b) (b := doe / 146096) (by simp at *; omega)
  have hyoe : (c / 365).toNat = year % 400 := by
    rw [← hyear]
    simp [yearOfEra, hcn, hbn, han, hdn]
  obtain ⟨yoe, hyo⟩ : ∃ yoe, yoe = c / 365 := ⟨_, rfl⟩
  rw [← hyo] at hyoe
  obtain ⟨e, he', hen'⟩ := checkedMul_some (a := era) (b := 400) (by simp; omega)
  obtain ⟨y, hy, hyn⟩ := checkedAdd_some (a := yoe) (b := e) (by simp at *; omega)
  obtain ⟨f, hf, hfn⟩ := checkedMul_some (a := 365) (b := yoe) (by simp; omega)
  obtain ⟨g, hg, hgn⟩ := checkedAdd_some (a := f) (b := yoe / 4) (by simp at *; omega)
  obtain ⟨k, hk, hkn⟩ := checkedSub_some (a := g) (b := yoe / 100) (by simp at *; omega)
  have hstart : k.toNat = eraStart (year % 400) := by
    simp [eraStart, hkn, hgn, hfn, hyoe]
  obtain ⟨doy, hdoy, hdoyn⟩ := checkedSub_some (a := doe) (b := k) (by omega)
  refine ⟨y, doy, ?_, ?_, ?_⟩
  · simp only [marchYearOf, ← hd, ← he, ha, hb, hc, ← hyo, he', hy, hf, hg, hk, hdoy,
      Option.bind_eq_bind, Option.bind_some, Option.pure_def]
  · simp at *; omega
  · omega

/-- The second step finds the month and its day. -/
theorem dateOf_shows {y doy : UInt64} {date : Date} (h : date.FallsOn y.toNat doy.toNat)
    (hy : y.toNat + 1 < 2 ^ 64) : IsDate (dateOf y doy) date := by
  have hmonth := marchMonth_le h.inside
  have hin : doy.toNat < 366 := by
    have := h.inside
    grind [marchLength, leapDays]
  have hstart := (marchMonth_bounds doy.toNat).1
  obtain ⟨a, ha, han⟩ := checkedMul_some (a := 5) (b := doy) (by simp; omega)
  obtain ⟨b, hb, hbn⟩ := checkedAdd_some (a := a) (b := 2) (by simp at *; omega)
  have hmp : (b / 153).toNat = marchMonth doy.toNat := by
    simp [marchMonth, hbn, han]
  obtain ⟨mp, hmpe⟩ : ∃ mp, mp = b / 153 := ⟨_, rfl⟩
  rw [← hmpe] at hmp
  obtain ⟨c, hc, hcn⟩ := checkedMul_some (a := 153) (b := mp) (by simp; omega)
  obtain ⟨e, he, hen⟩ := checkedAdd_some (a := c) (b := 2) (by simp at *; omega)
  have hbegins : (e / 5).toNat = monthStart (marchMonth doy.toNat) := by
    simp [monthStart, hen, hcn, hmp]
  obtain ⟨f, hf, hfn⟩ := checkedSub_some (a := doy) (b := e / 5) (by omega)
  obtain ⟨d, hd, hdn⟩ := checkedAdd_some (a := f) (b := 1) (by simp; omega)
  have hm : ∃ m, (if mp < 10 then checkedAdd mp 3 else checkedSub mp 9) = some m ∧
      m.toNat = date.month := by
    rw [h.month, calendarMonth]
    by_cases hlow : mp < 10
    · obtain ⟨m, hm, hmn⟩ := checkedAdd_some (a := mp) (b := 3) (by simp; omega)
      have hlow' : marchMonth doy.toNat < 10 := by
        rw [← hmp]
        exact hlow
      exact ⟨m, by rw [if_pos hlow, hm], by rw [if_pos hlow', hmn, hmp]; rfl⟩
    · have hlow' : ¬ marchMonth doy.toNat < 10 := by
        rw [← hmp]
        exact hlow
      obtain ⟨m, hm, hmn⟩ := checkedSub_some (a := mp) (b := 9) (by simp; omega)
      exact ⟨m, by rw [if_neg hlow, hm], by rw [if_neg hlow', hmn, hmp]; rfl⟩
  obtain ⟨m, hm, hmn⟩ := hm
  have hyear : ∃ y', (if m ≤ 2 then checkedAdd y 1 else some y) = some y' ∧
      y'.toNat = date.year := by
    rw [h.year, calendarYear, ← hmn]
    by_cases hearly : m ≤ 2
    · obtain ⟨y', hy', hyn⟩ := checkedAdd_some (a := y) (b := 1) (by simpa using hy)
      have hearly' : m.toNat ≤ 2 := hearly
      exact ⟨y', by rw [if_pos hearly, hy'], by rw [if_pos hearly', hyn]; rfl⟩
    · have hearly' : ¬ m.toNat ≤ 2 := hearly
      exact ⟨y, by rw [if_neg hearly], by rw [if_neg hearly']⟩
  obtain ⟨y', hy', hyn⟩ := hyear
  refine ⟨y', m, d, ?_, hyn, hmn, ?_⟩
  · simp only [dateOf, ha, hb, ← hmpe, hc, he, hf, hd, hm, hy', Option.bind_eq_bind,
      Option.bind_some, Option.pure_def]
  · rw [h.day, hdn, hfn, hbegins]
    rfl

/-- The closed form never leaves the range of `u64` once the shifted day count
is in it, and what it computes is the date that many days after the epoch. -/
theorem daysToYmd_shows {days : UInt64} (h : days.toNat + 719468 < 2 ^ 64) :
    IsDate (daysToYmd days) (epoch.after days.toNat) := by
  obtain ⟨year, r, hfalls, hcount⟩ := epoch_after days.toNat
  obtain ⟨z, hz, hzn⟩ := checkedAdd_some (a := days) (b := 719468) h
  obtain ⟨y, doy, hmarch, rfl, rfl⟩ := marchYearOf_some (hzn.trans hcount) hfalls.inside
  have hroom : y.toNat + 1 < 2 ^ 64 := by
    have := z.toNat_lt
    have : y.toNat ≤ marchStart y.toNat / 365 := by
      grind [marchStart]
    omega
  rw [daysToYmd_eq, hz, Option.bind_some, hmarch]
  exact dateOf_shows hfalls hroom

/-- Only the shift of the day count can leave the range. -/
theorem daysToYmd_eq_none_iff {days : UInt64} :
    daysToYmd days = none ↔ 2 ^ 64 ≤ days.toNat + 719468 := by
  by_cases h : days.toNat + 719468 < 2 ^ 64
  · obtain ⟨y, m, d, hymd, -⟩ := daysToYmd_shows h
    rw [hymd]
    simp only [reduceCtorEq, false_iff]
    omega
  · have hshift : checkedAdd days 719468 = none := if_neg h
    rw [daysToYmd_eq, hshift]
    simp only [Option.bind_none, true_iff]
    omega

/-- **The timestamp of the log is the date.**  For every number of seconds the
arithmetic stays in range: the date is the one as many days after 1970-01-01 as
the seconds make up, and the text shows it with the time of that day. -/
theorem chronoTs_date (secs : UInt64) :
    IsDate (daysToYmd (secs / 86400)) (epoch.after (secs.toNat / 86400)) ∧
      chronoTs secs = some (utcText (epoch.after (secs.toNat / 86400)) (secs.toNat % 86400)) := by
  have hdays : (secs / 86400).toNat = secs.toNat / 86400 := UInt64.toNat_div secs 86400
  have hrange : (secs / 86400).toNat + 719468 < 2 ^ 64 := by
    have := secs.toNat_lt
    omega
  have hshows := daysToYmd_shows hrange
  rw [hdays] at hshows
  refine ⟨hshows, ?_⟩
  obtain ⟨y, m, d, hymd, hy, hm, hd⟩ := hshows
  simp only [chronoTs, hymd, Option.bind_eq_bind, Option.bind_some, hy, hm, hd]
  rfl

end Respawn
