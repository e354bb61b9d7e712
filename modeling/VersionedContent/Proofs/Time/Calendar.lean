import Mathlib.Tactic.IntervalCases
import Mathlib.Tactic.SplitIfs
import VersionedContent.Time.Civil

/-!
# Days and dates

Every day has a date that the calendar has, and the date leads back to the day. An
era of 400 years is taken apart into centuries, spans of four years, years and days,
each as many as fit; the last of each may be longer than the others.
-/

namespace VersionedContent

/-- A day of an era, by the whole centuries, spans of four years and years that precede it in the
era, and its place in its year. Years start in March, so that a leap day ends its year. -/
structure EraDay where
  /-- Whole centuries before it. -/
  centuries : Nat
  /-- Whole spans of four years before it in its century. -/
  spans : Nat
  /-- Whole years before it in its span. -/
  years : Nat
  /-- Days before it in its year. -/
  days : Nat
  /-- An era has four centuries. -/
  centuries_le : centuries ≤ 3
  /-- A century has 25 spans. -/
  spans_le : spans ≤ 24
  /-- A span has four years. -/
  years_le : years ≤ 3
  /-- Only the last year of a span has a leap day, and that of a century only at the end of the
  era. -/
  days_le : days < 365 ∨ days = 365 ∧ years = 3 ∧ (spans < 24 ∨ centuries = 3)

namespace EraDay

/-- The number of the day in its era, from zero. -/
def number (day : EraDay) : Nat :=
  36524 * day.centuries + 1461 * day.spans + 365 * day.years + day.days

/-- The number of its year in the era, from zero. -/
def year (day : EraDay) : Nat := 100 * day.centuries + 4 * day.spans + day.years

/-- The number of its month in the year, from zero for March. -/
def month (day : EraDay) : Nat := (5 * day.days + 2) / 153

/-- As many steps as are allowed are taken, as long as they fit. -/
theorem exists_steps {step : Nat} (most total : Nat) (hs : 0 < step) :
    ∃ count rest, total = step * count + rest ∧ count ≤ most ∧ (rest < step ∨ count = most) := by
  by_cases h : total / step ≤ most
  · exact ⟨total / step, total % step, (Nat.div_add_mod total step).symm, h,
      .inl (Nat.mod_lt _ hs)⟩
  · have hle : step * most ≤ total := by
      calc step * most ≤ step * (total / step) := Nat.mul_le_mul_left step (by omega)
        _ ≤ total := Nat.mul_div_le total step
    exact ⟨most, total - step * most, by omega, Nat.le_refl most, .inr rfl⟩

/-- Every number below that of an era is the number of a day. -/
theorem exists_number_eq {n : Nat} (h : n < 146097) : ∃ day : EraDay, day.number = n := by
  obtain ⟨centuries, rest, rfl, hc, hcrest⟩ := @exists_steps 36524 3 n (by decide)
  obtain ⟨spans, rest, rfl, hs, hsrest⟩ := @exists_steps 1461 24 rest (by decide)
  obtain ⟨years, days, rfl, hy, hyrest⟩ := @exists_steps 365 3 rest (by decide)
  exact ⟨⟨centuries, spans, years, days, hc, hs, hy, by omega⟩, by simp only [number]; omega⟩

variable (day : EraDay)

/-- An era has 400 years. -/
theorem year_lt : day.year < 400 := by
  have hc := day.centuries_le
  have hs := day.spans_le
  have hy := day.years_le
  simp only [year]
  omega

/-- Whole spans before a year. -/
theorem year_div_four : day.year / 4 = 25 * day.centuries + day.spans := by
  have hy := day.years_le
  simp only [year]
  omega

/-- Whole centuries before a year. -/
theorem year_div_hundred : day.year / 100 = day.centuries := by
  have hs := day.spans_le
  have hy := day.years_le
  simp only [year]
  omega

/-- A year has twelve months. -/
theorem month_le : day.month ≤ 11 := by
  have hd := day.days_le
  simp only [month]
  omega

/-- The months before that of a day have no more days than precede it in its year. -/
theorem days_before_month_le : (153 * day.month + 2) / 5 ≤ day.days := by
  simp only [month]
  omega

/-- The year of a day follows from its number alone. -/
theorem year_eq :
    (day.number - day.number / 1460 + day.number / 36524 - day.number / 146096) / 365 =
      day.year := by
  obtain ⟨c, s, y, d, hc, hs, hy, hd⟩ := day
  obtain ⟨n, hn⟩ : ∃ n, n = number ⟨c, s, y, d, hc, hs, hy, hd⟩ := ⟨_, rfl⟩
  rw [← hn]
  simp only [number] at hn
  simp only [year]
  by_cases hlast : n = 146096
  · subst hlast
    omega
  · have hera : n / 146096 = 0 := by omega
    have hcentury : n / 36524 = c := by omega
    have hspan : n / 1460 = 25 * c + s + (24 * c + s + 365 * y + d) / 1460 := by omega
    -- Counted by 1460 days, a span may be taken for over on its last days.
    obtain ⟨extra, hextra⟩ : ∃ extra, extra = (24 * c + s + 365 * y + d) / 1460 := ⟨_, rfl⟩
    rw [hera, hcentury, hspan, ← hextra]
    omega

/-- A day is preceded by whole years, by the leap days of some of them and by the days of its
year. -/
theorem number_eq : day.number + day.year / 100 = 365 * day.year + day.year / 4 + day.days := by
  rw [year_div_four, year_div_hundred]
  simp only [number, year]
  omega

/-- The place of a day in its year follows from its number and its year. -/
theorem days_eq :
    day.number - (365 * day.year + day.year / 4 - day.year / 100) = day.days := by
  have hnumber := day.number_eq
  omega

/-- A year of 366 days is a leap year of the calendar, counted from January. -/
theorem isLeap_of_days_eq (h : day.days = 365) (era : Int) :
    CivilDate.isLeap (day.year + era * 400 + 1) = true := by
  have hs := day.spans_le
  have hd := day.days_le
  simp only [CivilDate.isLeap, Bool.or_eq_true, Bool.and_eq_true, beq_iff_eq, bne_iff_ne, year]
  omega

end EraDay

namespace CivilDate

/-- No month has more than 31 days. -/
theorem daysInMonth_le (year : Int) (month : Nat) : daysInMonth year month ≤ 31 := by
  unfold daysInMonth
  split <;> grind

/-- The date of a day is made of the parts of its era. -/
theorem exists_ofDays (days : Int) : ∃ (era : Int) (day : EraDay),
    days + 719468 = era * 146097 + day.number ∧
      ofDays days =
        if day.month < 10 then
          ⟨day.year + era * 400, day.month + 3, day.days - (153 * day.month + 2) / 5 + 1⟩
        else
          ⟨day.year + era * 400 + 1, day.month - 9,
            day.days - (153 * day.month + 2) / 5 + 1⟩ := by
  have hlt : ((days + 719468) % 146097).toNat < 146097 := by omega
  obtain ⟨day, hday⟩ := EraDay.exists_number_eq hlt
  refine ⟨(days + 719468) / 146097, day, by omega, ?_⟩
  simp only [ofDays, ← hday, day.year_eq, day.days_eq]
  rfl

/-- The date of a day leads back to the day. -/
theorem toDays_ofDays (days : Int) : (ofDays days).toDays = days := by
  obtain ⟨era, day, hnumber, hdate⟩ := exists_ofDays days
  have hyear := day.year_lt
  have hera : (day.year + era * 400) / 400 = era := by omega
  have hyearOfEra : (day.year + era * 400) % 400 = day.year := by omega
  have hspans := day.year_div_four
  have hcenturies := day.year_div_hundred
  have hdays := day.days_before_month_le
  have hmonth := day.month_le
  rw [hdate]
  split_ifs with hspring
  · simp only [toDays]
    rw [if_neg (by omega), if_neg (by omega), hera, hyearOfEra, Nat.add_sub_cancel]
    simp only [EraDay.number, EraDay.year] at hnumber hspans hcenturies ⊢
    omega
  · simp only [toDays]
    rw [if_pos (by omega), if_pos (by omega), add_sub_cancel_right, hera, hyearOfEra,
      Nat.sub_add_cancel (by omega)]
    simp only [EraDay.number, EraDay.year] at hnumber hspans hcenturies ⊢
    omega

/-- The calendar has the date of every day. -/
theorem isValid_ofDays (days : Int) : (ofDays days).isValid = true := by
  obtain ⟨era, day, -, hdate⟩ := exists_ofDays days
  have hleap := fun h => day.isLeap_of_days_eq h era
  obtain ⟨m, hm⟩ : ∃ m, m = day.month := ⟨_, rfl⟩
  have hmonth := day.month_le
  have hdays := day.days_le
  rw [hdate, ← hm]
  rw [← hm] at hmonth
  simp only [EraDay.month] at hm
  split_ifs with hspring
  · simp only [isValid, Bool.and_eq_true, decide_eq_true_eq]
    refine ⟨⟨⟨by omega, by omega⟩, by omega⟩, ?_⟩
    interval_cases m <;> simp only [daysInMonth] <;> omega
  · simp only [isValid, Bool.and_eq_true, decide_eq_true_eq]
    refine ⟨⟨⟨by omega, by omega⟩, by omega⟩, ?_⟩
    obtain rfl | rfl : m = 10 ∨ m = 11 := by omega
    · simp only [daysInMonth]
      omega
    · simp only [daysInMonth]
      by_cases hlong : day.days = 365
      · rw [if_pos (hleap hlong)]
        omega
      · split_ifs <;> omega

/-- Later years are preceded by as many leap days or more. -/
theorem leapDays_mono {early late : Int} (h : early ≤ late) :
    early / 4 - early / 100 ≤ late / 4 - late / 100 := by
  omega

/-- A year begins on its first day: the days from then on are those of it and of later years. -/
theorem le_year_ofDays_iff (year days : Int) :
    year ≤ (ofDays days).year ↔ (⟨year, 1, 1⟩ : CivilDate).toDays ≤ days := by
  obtain ⟨era, day, hnumber, hdate⟩ := exists_ofDays days
  obtain ⟨eraOf, first, hera, hfirst, hlt, hyear⟩ : ∃ eraOf first : Int,
      eraOf = (year - 1) / 400 ∧ 0 ≤ first ∧ first < 400 ∧ year = eraOf * 400 + first + 1 :=
    ⟨(year - 1) / 400, (year - 1) % 400, rfl, by omega, by omega, by omega⟩
  have hstart : (⟨year, 1, 1⟩ : CivilDate).toDays =
      eraOf * 146097 + (first * 365 + (first / 4 - first / 100) + 306) - 719468 := by
    have hrest : (year - 1) % 400 = first := by omega
    simp only [toDays]
    rw [if_pos (by decide), if_pos (by decide), hrest, ← hera]
    omega
  have hyears := day.number_eq
  have hbefore := day.year_lt
  have hdays := day.days_le
  have hspring : day.month < 10 ↔ day.days < 306 := by
    simp only [EraDay.month]
    omega
  -- The leap days of the two years count only by how they compare.
  have hearly := @leapDays_mono first day.year
  have hlate := @leapDays_mono day.year first
  have hnone := @leapDays_mono 0 first hfirst
  have hall := @leapDays_mono first 399 (by omega)
  obtain ⟨leaps, hleaps⟩ : ∃ leaps, leaps = first / 4 - first / 100 := ⟨_, rfl⟩
  rw [hdate, hstart, hyear, ← hleaps]
  rw [← hleaps] at hearly hlate hnone hall
  clear hleaps hstart hera
  split_ifs with hs
  · rw [hspring] at hs
    dsimp only
    omega
  · rw [hspring] at hs
    dsimp only
    omega

end CivilDate

end VersionedContent
