import Mathlib.Algebra.BigOperators.Intervals
import Mathlib.Algebra.Order.BigOperators.Group.Finset
import Mathlib.Data.Int.ConditionallyCompleteOrder
import Mathlib.Data.Prod.Lex

/-!
# The Gregorian calendar

The proleptic calendar: leap years, the lengths of years and months, and dates. `dayNumber` counts the
days from 1970-01-01 by the lengths of the years and months in between. It is strictly increasing
(`dayNumber_strictMono`). A year that begins in March has its leap day at the end, so a closed form of
the count has the months' lengths in one term (`dayNumber_eq`), and the years of a cycle of 400 are told
apart by divisions (`exists_cycleDay`).
-/

namespace Fstest.Calendar

open Finset

def IsLeap (y : ℤ) : Prop := y % 4 = 0 ∧ (y % 100 ≠ 0 ∨ y % 400 = 0)

instance : DecidablePred IsLeap := fun _ => inferInstanceAs (Decidable (_ ∧ _))

def yearLength (y : ℤ) : ℤ := if IsLeap y then 366 else 365

def monthLength (y m : ℤ) : ℤ :=
  if m = 2 then if IsLeap y then 29 else 28
  else if m = 4 ∨ m = 6 ∨ m = 9 ∨ m = 11 then 30
  else 31

@[ext]
structure Date where
  year : ℤ
  month : ℤ
  day : ℤ
  one_le_month : 1 ≤ month
  month_le : month ≤ 12
  one_le_day : 1 ≤ day
  day_le : day ≤ monthLength year month

/-- The days from 1970-01-01 to the first one of a year, less than zero before 1970. -/
def daysToYear (y : ℤ) : ℤ :=
  ∑ k ∈ range (y - 1970).toNat, yearLength (1970 + k) - ∑ k ∈ range (1970 - y).toNat, yearLength (y + k)

/-- The days of a year before a month. -/
def daysToMonth (y m : ℤ) : ℤ := ∑ k ∈ range (m - 1).toNat, monthLength y (1 + k)

def Date.dayNumber (d : Date) : ℤ := daysToYear d.year + daysToMonth d.year d.month + (d.day - 1)

namespace Date

/-- Dates are compared by the year, the month and the day. -/
def key (d : Date) : ℤ ×ₗ ℤ ×ₗ ℤ := toLex (d.year, toLex (d.month, d.day))

theorem key_injective : Function.Injective key := by
  intro a b h
  simp only [key, EmbeddingLike.apply_eq_iff_eq, Prod.mk.injEq] at h
  exact Date.ext h.1 h.2.1 h.2.2

instance : LinearOrder Date := LinearOrder.lift' key key_injective

theorem lt_iff {a b : Date} :
    a < b ↔ a.year < b.year ∨ a.year = b.year ∧ (a.month < b.month ∨ a.month = b.month ∧ a.day < b.day) := by
  have hkey : a < b ↔ key a < key b := Iff.rfl
  rw [hkey, key, key, Prod.Lex.toLex_lt_toLex, Prod.Lex.toLex_lt_toLex]

def triple (d : Date) : ℤ × ℤ × ℤ := (d.year, d.month, d.day)

/-- The first of January 1970. -/
def epoch : Date where
  year := 1970
  month := 1
  day := 1
  one_le_month := le_rfl
  month_le := by decide
  one_le_day := le_rfl
  day_le := by decide

end Date

/-! ## Years -/

theorem daysToYear_succ (y : ℤ) : daysToYear (y + 1) = daysToYear y + yearLength y := by
  rw [daysToYear, daysToYear]
  by_cases hy : 1970 ≤ y
  · obtain ⟨n, rfl⟩ : ∃ n : ℕ, y = 1970 + n := ⟨(y - 1970).toNat, by omega⟩
    have hnext : (1970 + (n : ℤ) + 1 - 1970).toNat = n + 1 := by omega
    have hthis : (1970 + (n : ℤ) - 1970).toNat = n := by omega
    have hbefore : (1970 - (1970 + (n : ℤ))).toNat = 0 := by omega
    have hbefore' : (1970 - (1970 + (n : ℤ) + 1)).toNat = 0 := by omega
    rw [hnext, hthis, hbefore, hbefore', sum_range_succ, sum_range_zero, sum_range_zero]
    omega
  · obtain ⟨n, hn⟩ : ∃ n : ℕ, 1970 = y + 1 + n := ⟨(1970 - (y + 1)).toNat, by omega⟩
    have hnext : (1970 - (y + 1)).toNat = n := by omega
    have hthis : (1970 - y).toNat = n + 1 := by omega
    have hafter : (y + 1 - 1970).toNat = 0 := by omega
    have hafter' : (y - 1970).toNat = 0 := by omega
    have hshift : ∀ k : ℕ, y + 1 + (k : ℤ) = y + ((k + 1 : ℕ) : ℤ) := by
      intro k
      push_cast
      omega
    rw [hnext, hthis, hafter, hafter', sum_range_succ', sum_range_zero]
    simp only [hshift, Nat.cast_zero, add_zero]
    omega

/-- The leap years up to a year, of those after year 0. -/
def leapsTo (y : ℤ) : ℤ := y / 4 - y / 100 + y / 400

theorem leapsTo_pred (y : ℤ) : leapsTo y = leapsTo (y - 1) + if IsLeap y then 1 else 0 := by
  rw [leapsTo, leapsTo]
  split
  · rename_i h
    rw [IsLeap] at h
    omega
  · rename_i h
    rw [IsLeap] at h
    omega

theorem daysToYear_eq (y : ℤ) : daysToYear y = 365 * (y - 1970) + (leapsTo (y - 1) - 477) := by
  have hstep : ∀ y, daysToYear (y + 1) - (365 * (y + 1 - 1970) + (leapsTo (y + 1 - 1) - 477)) =
      daysToYear y - (365 * (y - 1970) + (leapsTo (y - 1) - 477)) := by
    intro y
    rw [daysToYear_succ, yearLength, add_sub_cancel_right, leapsTo_pred y]
    split
    · omega
    · omega
  suffices h : daysToYear y - (365 * (y - 1970) + (leapsTo (y - 1) - 477)) = 0 by omega
  induction y using Int.inductionOn' (b := 1970) with
  | zero => decide
  | succ y _ ih => rw [hstep, ih]
  | pred y _ ih => rw [← hstep, sub_add_cancel, ih]

theorem daysToYear_mono : Monotone daysToYear :=
  monotone_int_of_le_succ fun y => by
    rw [daysToYear_succ, yearLength]
    split
    · omega
    · omega

/-! ## Months -/

theorem monthLength_pos (y m : ℤ) : 0 < monthLength y m := by
  rw [monthLength]
  split_ifs <;> decide

theorem daysToMonth_succ {m : ℤ} (hm : 1 ≤ m) (y : ℤ) :
    daysToMonth y (m + 1) = daysToMonth y m + monthLength y m := by
  obtain ⟨n, rfl⟩ : ∃ n : ℕ, m = 1 + n := ⟨(m - 1).toNat, by omega⟩
  have hnext : (1 + (n : ℤ) + 1 - 1).toNat = n + 1 := by omega
  have hthis : (1 + (n : ℤ) - 1).toNat = n := by omega
  rw [daysToMonth, daysToMonth, hnext, hthis, sum_range_succ]

theorem daysToMonth_mono {m n : ℤ} (h : m ≤ n) (y : ℤ) : daysToMonth y m ≤ daysToMonth y n := by
  have hle : (m - 1).toNat ≤ (n - 1).toNat := by omega
  exact sum_le_sum_of_subset_of_nonneg (range_mono hle) fun k _ _ => (monthLength_pos y _).le

/-- The months before a month, where the leap day counts from March on. -/
theorem daysToMonth_eq {m : ℤ} (hm : 1 ≤ m) (hm' : m ≤ 13) (y : ℤ) :
    daysToMonth y m =
      if m = 1 then 0
      else if m = 2 then 31
      else 59 + (if IsLeap y then 1 else 0) + (153 * (m - 3) + 2) / 5 := by
  induction m, hm using Int.leInduction with
  | base => rfl
  | succ m hm ih =>
    rw [daysToMonth_succ hm, ih (by omega), monthLength]
    grind

theorem daysToMonth_all (y : ℤ) : daysToMonth y 13 = yearLength y := by
  rw [daysToMonth_eq (by decide) le_rfl, yearLength]
  split_ifs <;> omega

/-! ## Days -/

namespace Date

theorem dayNumber_lt (d : Date) : d.dayNumber < daysToYear (d.year + 1) := by
  have hmonth := daysToMonth_succ d.one_le_month d.year
  have hend : d.month + 1 ≤ 13 := Int.add_le_add_right d.month_le 1
  have hyear := daysToMonth_mono hend d.year
  have hday := d.day_le
  rw [daysToMonth_all] at hyear
  rw [dayNumber, daysToYear_succ]
  omega

theorem le_dayNumber (d : Date) : daysToYear d.year ≤ d.dayNumber := by
  have hmonth := daysToMonth_mono d.one_le_month d.year
  have hzero : daysToMonth d.year 1 = 0 := rfl
  have hday := d.one_le_day
  rw [dayNumber]
  omega

/-- **A later date has a greater number.** -/
theorem dayNumber_strictMono : StrictMono dayNumber := by
  intro a b hab
  rcases lt_iff.mp hab with hyear | ⟨hyear, hmonth | ⟨hmonth, hday⟩⟩
  · calc a.dayNumber < daysToYear (a.year + 1) := a.dayNumber_lt
      _ ≤ daysToYear b.year := daysToYear_mono hyear
      _ ≤ b.dayNumber := b.le_dayNumber
  · have hstep := daysToMonth_succ a.one_le_month a.year
    have hle := daysToMonth_mono hmonth a.year
    have ha := a.day_le
    have hb := b.one_le_day
    rw [dayNumber, dayNumber, ← hyear]
    omega
  · rw [dayNumber, dayNumber, ← hyear, ← hmonth]
    omega

theorem year_bounds (d : Date) (h : 0 ≤ d.dayNumber) : 1970 ≤ d.year ∧ d.year ≤ 1970 + d.dayNumber := by
  have hlt := d.dayNumber_lt
  have hle := d.le_dayNumber
  rw [daysToYear_eq, leapsTo] at hlt hle
  omega

theorem day_le_31 (d : Date) : d.day ≤ 31 := by
  refine d.day_le.trans ?_
  rw [monthLength]
  split_ifs <;> decide

theorem dayNumber_injective : Function.Injective dayNumber := dayNumber_strictMono.injective

@[simp]
theorem dayNumber_epoch : epoch.dayNumber = 0 := by decide

theorem mem_Ici_epoch {d : Date} : d ∈ Set.Ici epoch ↔ d.dayNumber ∈ Set.Ici (0 : ℤ) := by
  rw [Set.mem_Ici, Set.mem_Ici, ← dayNumber_strictMono.le_iff_le, dayNumber_epoch]

end Date

/-! ## Years that begin in March -/

/-- The number of the first of March. -/
def marchFirst (y : ℤ) : ℤ := 365 * y + leapsTo y - 719468

theorem marchFirst_eq (y : ℤ) : marchFirst y = daysToYear y + 59 + if IsLeap y then 1 else 0 := by
  rw [marchFirst, daysToYear_eq, leapsTo_pred]
  omega

/-- The year that has begun in March. -/
def Date.marchYear (d : Date) : ℤ := if d.month ≤ 2 then d.year - 1 else d.year

/-- The months since March. -/
def Date.marchMonth (d : Date) : ℤ := if d.month ≤ 2 then d.month + 9 else d.month - 3

/-- **The number of a date**, by the months since March. -/
theorem Date.dayNumber_eq (d : Date) :
    d.dayNumber = marchFirst d.marchYear + (153 * d.marchMonth + 2) / 5 + (d.day - 1) := by
  have hone := d.one_le_month
  have hlast := d.month_le
  rw [dayNumber, marchYear, marchMonth, daysToMonth_eq hone (by omega)]
  by_cases hm : d.month ≤ 2
  · have hyear := daysToYear_succ (d.year - 1)
    rw [sub_add_cancel, yearLength] at hyear
    rw [if_pos hm, if_pos hm, marchFirst_eq, hyear]
    grind
  · rw [if_neg hm, if_neg hm, marchFirst_eq, if_neg (by omega), if_neg (by omega)]
    omega

/-- A day of the cycle of 400 years: the century `c`, the four years `q` in it, the year `k` of them, and
the day of this year. The last day of a year from March on is a leap day. -/
structure CycleDay (doe c q k doy : ℤ) : Prop where
  eq : doe = 36524 * c + 1461 * q + 365 * k + doy
  century : 0 ≤ c ∧ c ≤ 3
  fours : 0 ≤ q ∧ q ≤ 24
  year : 0 ≤ k ∧ k ≤ 3
  day : 0 ≤ doy ∧ doy ≤ 365
  leap : doy = 365 → k = 3 ∧ (q = 24 → c = 3)

theorem exists_cycleDay {doe : ℤ} (h : 0 ≤ doe) (h' : doe < 146097) :
    ∃ c q k doy, CycleDay doe c q k doy := by
  -- the last century and the last of four years are one day longer
  obtain ⟨c, hc⟩ : ∃ c, c = min (doe / 36524) 3 := ⟨_, rfl⟩
  obtain ⟨r, hr⟩ : ∃ r, r = doe - 36524 * c := ⟨_, rfl⟩
  obtain ⟨k, hk⟩ : ∃ k, k = min (r % 1461 / 365) 3 := ⟨_, rfl⟩
  refine ⟨c, r / 1461, k, r % 1461 - 365 * k, by omega, by omega, by omega, by omega, by omega, ?_⟩
  intro hlast
  omega

namespace CycleDay

variable {doe c q k doy : ℤ}

/-- The first of March of a year in the cycle that is number `era` from year 0 on. -/
theorem marchFirst_eq (h : CycleDay doe c q k doy) (era : ℤ) :
    marchFirst (100 * c + 4 * q + k + 400 * era) + doy = 146097 * era + doe - 719468 := by
  obtain ⟨heq, hc, hq, hk, -, -⟩ := h
  rw [marchFirst, leapsTo]
  omega

theorem isLeap (h : CycleDay doe c q k doy) (hlast : doy = 365) (era : ℤ) :
    IsLeap (100 * c + 4 * q + k + 400 * era + 1) := by
  have hleap := h.leap hlast
  obtain ⟨-, hc, hq, hk, -, -⟩ := h
  rw [IsLeap]
  omega

end CycleDay

end Fstest.Calendar
