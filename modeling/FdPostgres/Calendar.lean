import Mathlib

/-!
# Dates and Day Numbers

`date2j` and `j2date` convert between dates of the Gregorian calendar, which is extended to all
years, and Julian day numbers. The ISO year and week of a date are computed from the day number of
January 4th, which is in the first week of its year.

What they are compared with is the calendar itself: the dates one after the other, each found from
the one before by the lengths of the months. `date2j` computes in `int`, where a result that does
not fit is undefined (`ints`), and `j2date` in `unsigned int`, which wraps around (`u32`).

* `calendar`: the date of each day, counted from day 0 on.
* `IsoWeek`: the year and the week of a day by ISO 8601.
* `calendar_exact`: **the conversions follow the calendar** for all day numbers of 31 bits.
-/

namespace FdPostgres.Calendar

/-! ### The conversions -/

/-- A date, with a year 0. -/
structure Date where
  year : ℤ
  month : ℤ
  day : ℤ
  deriving DecidableEq

/-- A value of type `int`, given the results on the way to it. -/
def ints (results : List ℤ) (x : ℤ) : Option ℤ :=
  if ∀ r ∈ results, -2 ^ 31 ≤ r ∧ r < 2 ^ 31 then some x else none

theorem ints_eq {results : List ℤ} {x : ℤ} (h : ∀ r ∈ results, -2 ^ 31 ≤ r ∧ r < 2 ^ 31) :
    ints results x = some x := if_pos h

/-- The day number of a date. Years start in March, and the divisions truncate. -/
def date2j (y m d : ℤ) : Option ℤ :=
  let (m, y) := if m > 2 then (m + 1, y + 4800) else (m + 13, y + 4799)
  let century := y.tdiv 100
  let julian := y * 365 - 32167
  let leaps := y.tdiv 4 - century + century.tdiv 4
  let days := (7834 * m).tdiv 256 + d
  let result := julian + leaps + days
  ints [m, y, y * 365, julian, y.tdiv 4 - century, leaps, julian + leaps, 7834 * m, days, result]
    result

/-- A value of type `unsigned int`. -/
def u32 (x : ℤ) : ℤ := x % 2 ^ 32

/-- The date of a day number, by cycles of 400 years and of four years. -/
def j2date (jd : ℤ) : Date :=
  let julian := u32 (jd + 32044)
  let quad := julian / 146097
  let extra := u32 ((julian - quad * 146097) * 4 + 3)
  let julian := u32 (julian + (60 + quad * 3 + extra / 146097))
  let quad := julian / 1461
  let julian := u32 (julian - quad * 1461)
  let y := u32 (julian * 4) / 1461
  let julian := (if y ≠ 0 then u32 (julian + 305) % 365 else u32 (julian + 306) % 366) + 123
  let y := (y + quad * 4).bmod (2 ^ 32)
  let quad := u32 (julian * 2141) / 65536
  ⟨y - 4800, (quad + 10) % 12 + 1, (julian - u32 (7834 * quad) / 256).bmod (2 ^ 32)⟩

/-- The day of the week, 0 for Sunday. -/
def j2day (date : ℤ) : Option ℤ := do
  let date ← ints [date + 1] ((date + 1).tmod 7)
  return if date < 0 then date + 7 else date

/-- `day4 - day0` of a year: the Monday of the week with January 4th. -/
def firstMonday (year : ℤ) : Option ℤ := do
  let day4 ← date2j year 1 4
  let day0 ← j2day (day4 - 1)
  ints [day4 - 1, day4 - day0] (day4 - day0)

/-- The day number of the Monday of a week. -/
def isoweek2j (year week : ℤ) : Option ℤ := do
  let monday ← firstMonday year
  ints [week - 1, (week - 1) * 7, (week - 1) * 7 + monday] ((week - 1) * 7 + monday)

/-- The date of a day of a week, with the days of the week counted from Sunday, which is 1 and comes
last in its week. -/
def isoweekdate2date (isoweek wday year : ℤ) : Option Date := do
  let jday ← isoweek2j year isoweek
  let jday ← if wday > 1 then ints [wday - 2, jday + (wday - 2)] (jday + (wday - 2))
    else ints [jday + 6] (jday + 6)
  return j2date jday

/-- The week of a day, counted from the week of a Monday on. -/
def weekFrom (monday dayn : ℤ) : Option ℤ :=
  ints [dayn - monday, (dayn - monday).tdiv 7 + 1] ((dayn - monday).tdiv 7 + 1)

/-- The week of a date. Days before the first week belong to the year before, and days of the last
week may belong to the next year. -/
def date2isoweek (year mon mday : ℤ) : Option ℤ := do
  let dayn ← date2j year mon mday
  let monday ← firstMonday year
  let monday ← if dayn < monday then firstMonday (year - 1) else some monday
  let result ← weekFrom monday dayn
  if result ≥ 52 then
    let monday ← firstMonday (year + 1)
    if dayn ≥ monday then weekFrom monday dayn else some result
  else some result

/-- The year to which the week of a date belongs, which is computed in the same way. -/
def date2isoyear (year mon mday : ℤ) : Option ℤ := do
  let dayn ← date2j year mon mday
  let monday ← firstMonday year
  let (monday, year) ← if dayn < monday then (firstMonday (year - 1)).map (·, year - 1)
    else some (monday, year)
  let result ← weekFrom monday dayn
  if result ≥ 52 then
    let monday ← firstMonday (year + 1)
    return if dayn ≥ monday then year + 1 else year
  else return year

/-! ### The calendar -/

/-- The number of days of a month. -/
def daysIn (y m : ℤ) : ℤ :=
  if m = 2 then if y % 4 = 0 ∧ (y % 100 ≠ 0 ∨ y % 400 = 0) then 29 else 28
  else if m = 4 ∨ m = 6 ∨ m = 9 ∨ m = 11 then 30 else 31

/-- The dates that there are in the calendar, in any year. -/
def Date.Valid (date : Date) : Prop :=
  (1 ≤ date.month ∧ date.month ≤ 12) ∧ 1 ≤ date.day ∧ date.day ≤ daysIn date.year date.month

/-- The date of the next day, by the lengths of the months. -/
def Date.next (date : Date) : Date :=
  if date.day < daysIn date.year date.month then ⟨date.year, date.month, date.day + 1⟩
  else if date.month < 12 then ⟨date.year, date.month + 1, 1⟩
  else ⟨date.year + 1, 1, 1⟩

/-- The date of a day, counted from November 24th of the year -4713 on. -/
def calendar (n : ℕ) : Date := Date.next^[n] ⟨-4713, 11, 24⟩

/-- **The ISO year and week of a day.** The weeks of a year are those from the week with its January
4th on, before the week with January 4th of the next year. Day 0 is a Monday. -/
def IsoWeek (jd : ℕ) (year week : ℤ) : Prop :=
  ∃ a b : ℕ, calendar a = ⟨year, 1, 4⟩ ∧ calendar b = ⟨year + 1, 1, 4⟩ ∧
    a / 7 ≤ jd / 7 ∧ jd / 7 < b / 7 ∧ week = jd / 7 - a / 7 + 1

/-! ### Counting the days -/

/-- The number of a date, without bounds. -/
def Date.number (date : Date) : ℤ :=
  let (m, y) := if date.month > 2 then (date.month + 1, date.year + 4800)
    else (date.month + 13, date.year + 4799)
  y * 365 - 32167 + (y / 4 - y / 100 + y / 400) + (7834 * m / 256 + date.day)

variable {date : Date}

theorem daysIn_mem (y m : ℤ) : 28 ≤ daysIn y m ∧ daysIn y m ≤ 31 := by
  rw [daysIn]
  split_ifs <;> decide

theorem Date.Valid.next (h : date.Valid) : date.next.Valid := by
  obtain ⟨⟨hm, hm'⟩, hd, -⟩ := h
  have hfirst : ∀ y m, 1 ≤ daysIn y m := fun y m => le_trans (by decide) (daysIn_mem y m).1
  rw [Date.next]
  split_ifs with hlast hdec
  · exact ⟨⟨hm, hm'⟩, Int.le_add_one hd, hlast⟩
  · exact ⟨⟨Int.le_add_one hm, hdec⟩, Int.le_refl 1, hfirst _ _⟩
  · exact ⟨⟨Int.le_refl 1, by simp⟩, Int.le_refl 1, hfirst _ _⟩

/-- **One day on.** -/
theorem number_next (h : date.Valid) : date.next.number = date.number + 1 := by
  obtain ⟨y, m, d⟩ := date
  obtain ⟨⟨hm, hm'⟩, -, hd⟩ := h
  dsimp only at hm hm' hd
  rw [Date.next]
  dsimp only
  split_ifs with hday hmonth
  · simp only [Date.number]
    split <;> omega
  · -- the last day of a month
    have hlast : d = daysIn y m := by omega
    rw [hlast]
    clear hday hd hlast
    simp only [Date.number, daysIn]
    interval_cases m <;> simp <;> omega
  · have hdec : m = 12 := by omega
    have hlast : d = daysIn y m := by omega
    rw [hlast, hdec]
    simp only [Date.number, daysIn]
    simp
    omega

theorem number_calendar (n : ℕ) : (calendar n).Valid ∧ (calendar n).number = n := by
  induction n with
  | zero => exact ⟨⟨⟨by decide, by decide⟩, by decide, by decide⟩, by decide⟩
  | succ n ih =>
    rw [calendar, Function.iterate_succ_apply', ← calendar, number_next ih.1, ih.2]
    exact ⟨ih.1.next, rfl⟩

/-- **The number of a date** is computed without overflow. -/
theorem date2j_eq (h : date.Valid) (h0 : 0 ≤ date.number) (h1 : date.number < 2 ^ 31) :
    date2j date.year date.month date.day = some date.number := by
  obtain ⟨y, m, d⟩ := date
  obtain ⟨⟨hm, hm'⟩, hd, hd'⟩ := h
  have hdays := daysIn_mem y m
  dsimp only [Date.number, date2j] at *
  obtain ⟨M, Y, hMY⟩ : ∃ M Y, (if m > 2 then (m + 1, y + 4800) else (m + 13, y + 4799)) = (M, Y) :=
    ⟨_, _, rfl⟩
  have hM : 4 ≤ M ∧ M ≤ 15 := by
    split_ifs at hMY <;> simp at hMY <;> omega
  rw [hMY] at h0 h1 ⊢
  dsimp only at h0 h1 ⊢
  rw [Int.tdiv_eq_ediv_of_nonneg (a := Y) (b := 4) (by omega),
    Int.tdiv_eq_ediv_of_nonneg (by omega), Int.tdiv_eq_ediv_of_nonneg (by omega),
    Int.tdiv_eq_ediv_of_nonneg (by omega), show Y / 100 / 4 = Y / 400 by omega, ints, if_pos]
  simp only [List.forall_mem_cons]
  refine ⟨?_, ?_, ?_, ?_, ?_, ?_, ?_, ?_, ?_, ?_, by simp⟩ <;> omega

/-! ### The date of a day -/

theorem u32_of_lt {x : ℤ} (h : 0 ≤ x) (h' : x < 2 ^ 32) : u32 x = x := Int.emod_eq_of_lt h h'

/-- The date of a day by its day `e` in the year `Y`, which starts in March with day 123. -/
theorem j2date_march {jd Y e : ℤ} (h0 : 0 ≤ jd) (h1 : jd < 2 ^ 31)
    (hjd : jd + 32167 = 365 * Y + Y / 4 - Y / 100 + Y / 400 + e) (he : 123 ≤ e ∧ e ≤ 488)
    (hleap : e = 488 → (Y + 1) % 4 = 0 ∧ ((Y + 1) % 100 ≠ 0 ∨ (Y + 1) % 400 = 0)) :
    j2date jd = ⟨Y + (if e < 429 then 0 else 1) - 4800, (e * 2141 / 65536 + 10) % 12 + 1,
      e - 7834 * (e * 2141 / 65536) / 256⟩ := by
  -- the cycles of 400, 100 and 4 years
  obtain ⟨a, c, b, k, rfl, hc, hb, hk⟩ : ∃ a c b k, Y = 400 * a + 100 * c + 4 * b + k ∧
      (0 ≤ c ∧ c ≤ 3) ∧ (0 ≤ b ∧ b ≤ 24) ∧ 0 ≤ k ∧ k ≤ 3 :=
    ⟨Y / 400, Y % 400 / 100, Y % 400 % 100 / 4, Y % 400 % 100 % 4, by omega, by omega, by omega,
      by omega⟩
  rw [show (400 * a + 100 * c + 4 * b + k) / 4 = 100 * a + 25 * c + b by omega,
    show (400 * a + 100 * c + 4 * b + k) / 100 = 4 * a + c by omega,
    show (400 * a + 100 * c + 4 * b + k) / 400 = a by omega] at hjd
  replace hleap : e = 488 → k = 3 ∧ (b = 24 → c = 3) := by omega
  have hquad : (jd + 32044) / 146097 = a := by omega
  have hextra : ((jd + 32044 - a * 146097) * 4 + 3) / 146097 = c := by omega
  -- January and February of the last year of a cycle are counted in the next cycle
  obtain ⟨q, r, hqr, hr, hy, hday⟩ : ∃ q r, jd + 32044 + (60 + a * 3 + c) = q * 1461 + r ∧
      (0 ≤ r ∧ r < 1461) ∧
      r * 4 / 1461 + q * 4 = 400 * a + 100 * c + 4 * b + k + (if e < 429 then 0 else 1) ∧
      (if r * 4 / 1461 ≠ 0 then (r + 305) % 365 else (r + 306) % 366) + 123 = e := by
    by_cases hlate : k = 3 ∧ 429 ≤ e
    · refine ⟨100 * a + 25 * c + b + 1, e - 429, ?_⟩
      split_ifs <;> omega
    · refine ⟨100 * a + 25 * c + b, 365 * k + e - 63, ?_⟩
      rcases (by omega : k = 0 ∨ k = 1 ∨ k = 2 ∨ k = 3) with rfl | rfl | rfl | rfl <;>
        split_ifs <;> omega
  dsimp only [j2date]
  rw [u32_of_lt (x := jd + 32044) (by omega) (by omega), hquad,
    u32_of_lt (x := _ * 4 + 3) (by omega) (by omega), hextra, hqr,
    u32_of_lt (x := _ + r) (by omega) (by omega), show (q * 1461 + r) / 1461 = q by omega,
    add_sub_cancel_left, u32_of_lt hr.1 (by omega), u32_of_lt (x := r * 4) (by omega) (by omega),
    u32_of_lt (x := r + 305) (by omega) (by omega), u32_of_lt (x := r + 306) (by omega) (by omega),
    hday, hy, u32_of_lt (x := _ * 2141) (by omega) (by omega),
    u32_of_lt (x := 7834 * _) (by omega) (by omega), Int.bmod_eq_of_le (by omega) (by omega),
    Int.bmod_eq_of_le (by omega) (by omega)]

/-- A date by its day in the year that starts in March. -/
theorem Date.Valid.march (h : date.Valid) : ∃ Y e : ℤ,
    date.number + 32167 = 365 * Y + Y / 4 - Y / 100 + Y / 400 + e ∧ (123 ≤ e ∧ e ≤ 488) ∧
      (e = 488 → (Y + 1) % 4 = 0 ∧ ((Y + 1) % 100 ≠ 0 ∨ (Y + 1) % 400 = 0)) ∧
      date = ⟨Y + (if e < 429 then 0 else 1) - 4800, (e * 2141 / 65536 + 10) % 12 + 1,
        e - 7834 * (e * 2141 / 65536) / 256⟩ := by
  obtain ⟨y, m, d⟩ := date
  obtain ⟨⟨hm, hm'⟩, hd, hd'⟩ := h
  dsimp only at hm hm' hd hd'
  refine ⟨if m > 2 then y + 4800 else y + 4799,
    7834 * (if m > 2 then m + 1 else m + 13) / 256 + d, ?_⟩
  have hM : (7834 * (if m > 2 then m + 1 else m + 13) / 256 + d) * 2141 / 65536 =
      if m > 2 then m + 1 else m + 13 := by
    rw [daysIn] at hd'
    interval_cases m <;> simp at hd' ⊢ <;> omega
  rw [hM, Date.mk.injEq]
  simp only [Date.number]
  rw [daysIn] at hd'
  interval_cases m <;> simp at hd' ⊢ <;> omega

/-- **The date of a number.** -/
theorem j2date_number (h : date.Valid) (h0 : 0 ≤ date.number) (h1 : date.number < 2 ^ 31) :
    j2date date.number = date := by
  obtain ⟨Y, e, hnumber, he, hleap, hdate⟩ := h.march
  rw [j2date_march h0 h1 hnumber he hleap]
  exact hdate.symm

/-! ### Weeks -/

/-- The number of January 4th. -/
def jan4 (y : ℤ) : ℤ := (⟨y, 1, 4⟩ : Date).number

theorem jan4_eq (y : ℤ) : jan4 y = (y + 4799) * 365 - 32167 +
    ((y + 4799) / 4 - (y + 4799) / 100 + (y + 4799) / 400) + 432 := rfl

theorem jan4_succ (y : ℤ) : jan4 y + 365 ≤ jan4 (y + 1) ∧ jan4 (y + 1) ≤ jan4 y + 366 := by
  rw [jan4_eq, jan4_eq]
  omega

/-- The days of a year. -/
theorem number_mem (h : date.Valid) :
    jan4 date.year ≤ date.number + 3 ∧ date.number + 4 ≤ jan4 (date.year + 1) := by
  obtain ⟨Y, e, hnumber, he, -, hdate⟩ := h.march
  have hyear : date.year = Y + (if e < 429 then 0 else 1) - 4800 := congrArg Date.year hdate
  rw [jan4_eq, jan4_eq, hyear]
  split_ifs <;> omega

theorem jan4_valid (y : ℤ) : (⟨y, 1, 4⟩ : Date).Valid := ⟨by simp, by simp [daysIn]⟩

theorem calendar_jan4 {y : ℤ} (h0 : 0 ≤ jan4 y) (h1 : jan4 y < 2 ^ 31) :
    calendar (jan4 y).toNat = ⟨y, 1, 4⟩ := by
  obtain ⟨hvalid, hnum⟩ := number_calendar (jan4 y).toNat
  rw [Int.toNat_of_nonneg h0] at hnum
  rw [← j2date_number hvalid (by omega) (by omega), hnum]
  exact j2date_number (jan4_valid y) h0 h1

theorem j2day_eq {n : ℤ} (h0 : 0 ≤ n + 1) (h1 : n + 1 < 2 ^ 31) :
    j2day n = some ((n + 1) % 7) := by
  rw [j2day, ints, if_pos (List.forall_mem_singleton.mpr ⟨by omega, h1⟩),
    Int.tmod_eq_emod_of_nonneg h0]
  exact congrArg some (if_neg (by omega))

theorem firstMonday_eq {y : ℤ} (h0 : 0 ≤ jan4 y) (h1 : jan4 y < 2 ^ 31) :
    firstMonday y = some (7 * (jan4 y / 7)) := by
  have hday4 : date2j y 1 4 = some (jan4 y) := date2j_eq (jan4_valid y) h0 h1
  have hday0 := j2day_eq (n := jan4 y - 1) (by omega) (by omega)
  have hmonday : jan4 y - (jan4 y - 1 + 1) % 7 = 7 * (jan4 y / 7) := by omega
  rw [firstMonday, hday4, Option.bind_eq_bind, Option.bind_some, hday0, Option.bind_some, hmonday]
  exact ints_eq (by simp only [List.forall_mem_cons]; exact ⟨by omega, by omega, by simp⟩)

/-- The week of a day, from a Monday on. -/
theorem weekFrom_eq {n w : ℤ} (hw : 0 ≤ w) (h : w ≤ n / 7) (hn : n < 2 ^ 31) :
    weekFrom (7 * w) n = some (n / 7 - w + 1) := by
  have hweek : (n - 7 * w).tdiv 7 + 1 = n / 7 - w + 1 := by
    rw [Int.tdiv_eq_ediv_of_nonneg (by omega)]
    omega
  rw [weekFrom, hweek]
  exact ints_eq (by simp only [List.forall_mem_cons]; exact ⟨by omega, by omega, by simp⟩)

/-- **The ISO year and week** that are computed. -/
theorem isoyear_isoweek {y m d n : ℤ} (h : Date.Valid ⟨y, m, d⟩) (hn : Date.number ⟨y, m, d⟩ = n)
    (h0 : 730 ≤ n) (h1 : n + 730 < 2 ^ 31) : ∃ Y, date2isoyear y m d = some Y ∧
      date2isoweek y m d = some (n / 7 - jan4 Y / 7 + 1) ∧
      (0 ≤ jan4 Y ∧ jan4 (Y + 1) < 2 ^ 31) ∧ jan4 Y / 7 ≤ n / 7 ∧ n / 7 < jan4 (Y + 1) / 7 := by
  obtain ⟨hlow, hhigh⟩ := number_mem h
  have hdayn := date2j_eq h (by omega) (by omega)
  dsimp only at hlow hhigh hdayn
  rw [hn] at hlow hhigh hdayn
  have hprev := jan4_succ (y - 1)
  have hyear := jan4_succ y
  have hnext := jan4_succ (y + 1)
  rw [Int.sub_add_cancel] at hprev
  have hmonday := firstMonday_eq (y := y) (by omega) (by omega)
  simp only [date2isoyear, date2isoweek, hdayn, hmonday,
    firstMonday_eq (y := y + 1) (by omega) (by omega),
    firstMonday_eq (y := y - 1) (by omega) (by omega), Option.bind_eq_bind, Option.bind_some,
    Option.map_some]
  by_cases hlt : n < 7 * (jan4 y / 7)
  · have hge : ¬ n ≥ 7 * (jan4 (y + 1) / 7) := by omega
    have hle : jan4 (y - 1) / 7 ≤ n / 7 := by omega
    have hweek : n / 7 - jan4 (y - 1) / 7 + 1 ≥ 52 := by omega
    refine ⟨y - 1, ?_⟩
    simp only [if_pos hlt, Option.bind_some, Int.sub_add_cancel, hmonday, if_neg hge,
      weekFrom_eq (by omega) hle (by omega), if_pos hweek, if_neg hlt.not_ge, true_and]
    exact ⟨rfl, by omega⟩
  · have hle : jan4 y / 7 ≤ n / 7 := by omega
    simp only [if_neg hlt, Option.bind_some, weekFrom_eq (by omega) hle (by omega)]
    by_cases hge : n ≥ 7 * (jan4 (y + 1) / 7)
    · have hle : jan4 (y + 1) / 7 ≤ n / 7 := by omega
      have hweek : n / 7 - jan4 y / 7 + 1 ≥ 52 := by omega
      refine ⟨y + 1, ?_⟩
      simp only [if_pos hweek, if_pos hge, weekFrom_eq (by omega) hle (by omega),
        true_and]
      exact ⟨rfl, by omega⟩
    · refine ⟨y, ?_⟩
      simp only [if_neg hge, ite_self, true_and]
      exact ⟨rfl, by omega⟩

/-- The date of a week and a day of the week. -/
theorem isoweekdate2date_eq {y n : ℤ} (h0 : 0 ≤ jan4 y) (h1 : jan4 y < 2 ^ 31)
    (hle : jan4 y / 7 ≤ n / 7) (hn : n + 7 < 2 ^ 31) :
    isoweekdate2date (n / 7 - jan4 y / 7 + 1) ((n + 1) % 7 + 1) y = some (j2date n) := by
  have hweek : (n / 7 - jan4 y / 7 + 1 - 1) * 7 + 7 * (jan4 y / 7) = 7 * (n / 7) := by omega
  have hmonday : isoweek2j y (n / 7 - jan4 y / 7 + 1) = some (7 * (n / 7)) := by
    rw [isoweek2j, firstMonday_eq h0 h1, Option.bind_eq_bind, Option.bind_some, hweek]
    exact ints_eq (by
      simp only [List.forall_mem_cons]
      exact ⟨by omega, by omega, by omega, by simp⟩)
  simp only [isoweekdate2date, hmonday, Option.bind_eq_bind, Option.bind_some]
  by_cases hday : (n + 1) % 7 + 1 > 1
  · have heq : 7 * (n / 7) + ((n + 1) % 7 + 1 - 2) = n := by omega
    rw [if_pos hday, heq, ints_eq (by
      simp only [List.forall_mem_cons]
      exact ⟨by omega, by omega, by simp⟩)]
    rfl
  · have heq : 7 * (n / 7) + 6 = n := by omega
    rw [if_neg hday, heq, ints_eq (by
      simp only [List.forall_mem_cons]
      exact ⟨by omega, by simp⟩)]
    rfl

/-- **The conversions follow the calendar.** Every day number gives its date, which is valid and has
that number, and the next day number gives the next date. Two years away from the ends of the range
the ISO year and week are right and give the date back. -/
theorem calendar_exact (jd : ℕ) (h : jd < 2 ^ 31) :
    j2date jd = calendar jd ∧ (j2date jd).Valid ∧
      date2j (j2date jd).year (j2date jd).month (j2date jd).day = some ↑jd ∧
      (jd + 1 < 2 ^ 31 → j2date ↑(jd + 1) = (j2date jd).next) ∧
      (730 ≤ jd → jd + 730 < 2 ^ 31 → ∃ year week wday,
        date2isoyear (j2date jd).year (j2date jd).month (j2date jd).day = some year ∧
        date2isoweek (j2date jd).year (j2date jd).month (j2date jd).day = some week ∧
        IsoWeek jd year week ∧ j2day jd = some wday ∧
        isoweekdate2date week (wday + 1) year = some (j2date jd)) := by
  have hdate : ∀ n : ℕ, n < 2 ^ 31 → j2date n = calendar n := by
    intro n hn
    obtain ⟨hvalid, hnum⟩ := number_calendar n
    rw [← j2date_number hvalid (by omega) (by omega), hnum]
  obtain ⟨hvalid, hnum⟩ := number_calendar jd
  have hday := date2j_eq hvalid (by omega) (by omega)
  rw [hdate jd h]
  refine ⟨rfl, hvalid, hnum ▸ hday, fun hnext => ?_, fun h0 h1 => ?_⟩
  · rw [hdate _ hnext, calendar, Function.iterate_succ_apply', ← calendar]
  · obtain ⟨Y, hyear, hweek, ⟨hpos, hlt⟩, hfirst, hlast⟩ :=
      isoyear_isoweek hvalid hnum (by omega) (by omega)
    refine ⟨Y, _, _, hyear, hweek, ⟨(jan4 Y).toNat, (jan4 (Y + 1)).toNat,
      calendar_jan4 hpos (by omega), calendar_jan4 (by omega) hlt, by omega, by omega, by omega⟩,
      j2day_eq (by omega) (by omega), ?_⟩
    rw [isoweekdate2date_eq hpos (by omega) hfirst (by omega), hdate jd h]

/-- The first day of the year 2000 is the Saturday of the last week of 1999. -/
theorem calendar_exact_2000 : date2j 2000 1 1 = some 2451545 ∧ IsoWeek 2451545 1999 52 ∧
    isoweekdate2date 52 7 1999 = some ⟨2000, 1, 1⟩ := by
  obtain ⟨-, -, hnumber, -, hiso⟩ := calendar_exact 2451545 (by decide)
  obtain ⟨year, week, wday, hyear, hweek, hwhich, hday, hback⟩ := hiso (by decide) (by decide)
  obtain rfl : year = 1999 := Option.some.inj (hyear.symm.trans (by decide))
  obtain rfl : week = 52 := Option.some.inj (hweek.symm.trans (by decide))
  obtain rfl : wday = 6 := Option.some.inj (hday.symm.trans (by decide))
  exact ⟨hnumber, hwhich, hback⟩

end FdPostgres.Calendar
