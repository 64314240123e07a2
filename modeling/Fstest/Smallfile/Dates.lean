import Fstest.Lib.Calendar
import Fstest.Lib.Text
import Mathlib.Order.Hom.Set

/-!
# The dates of the reports

`civil_from_days` finds the date of a day by divisions: the days are counted from a first of March, the
start of a cycle of 400 years, so the leap day is the last one of its year. The dates are those of the
calendar (`civilFromDays_calendar`). The divisions truncate, and are carried out in `i64`, where no step
overflows (`Word.civilFromDays_eq`) for the days of a time that `iso8601` gets (`Word.days_bounds`).
-/

namespace Fstest.Smallfile

open Calendar Text

def civilFromDays (z : ℤ) : ℤ × ℤ × ℤ :=
  let z := z + 719468
  let era := (if 0 ≤ z then z else z - 146096).tdiv 146097
  let doe := z - era * 146097
  let yoe := (doe - doe.tdiv 1460 + doe.tdiv 36524 - doe.tdiv 146096).tdiv 365
  let y := yoe + era * 400
  let doy := doe - (365 * yoe + yoe.tdiv 4 - yoe.tdiv 100)
  let mp := (5 * doy + 2).tdiv 153
  let d := doy - (153 * mp + 2).tdiv 5 + 1
  let m := if mp < 10 then mp + 3 else mp - 9
  (if m ≤ 2 then y + 1 else y, m, d)

/-- `{n:0w}` of a number that is not negative. -/
def padded (w : ℕ) (n : ℤ) : Text := (decimal n.toNat).leftpad w '0'

/-- `iso8601` of the seconds since the epoch; an earlier time counts as the epoch. -/
def iso8601 (secs : ℤ) : Text :=
  let days := secs / 86400
  let rem := secs % 86400
  let (y, m, d) := civilFromDays days
  padded 4 y ++ text "-" ++ padded 2 m ++ text "-" ++ padded 2 d ++ text "T" ++
    padded 2 (rem / 3600) ++ text ":" ++ padded 2 (rem % 3600 / 60) ++ text ":" ++ padded 2 (rem % 60) ++
    text "Z"

example : iso8601 1709210096 = text "2024-02-29T12:34:56Z" := by decide +kernel

/-! ## The steps -/

/-- The truncating division by the length of a cycle rounds down. -/
theorem era_eq (z : ℤ) : (if 0 ≤ z then z else z - 146096).tdiv 146097 = z / 146097 := by
  split
  · rename_i h
    exact Int.tdiv_eq_ediv_of_nonneg h
  · rename_i h
    rw [Int.tdiv_eq_ediv, Int.sign_eq_one_of_pos (by decide)]
    split
    · omega
    · omega

/-- The days that are left of the year when those of the leap days so far are taken out: on the leap day
itself one more is. -/
theorem rest_bounds {doe c q k doy : ℤ} (h : CycleDay doe c q k doy) :
    0 ≤ doy - (24 * c + q + 365 * k + doy) / 1460 ∧ doy - (24 * c + q + 365 * k + doy) / 1460 < 365 := by
  obtain ⟨-, hc, hq, hk, hday, hleap⟩ := h
  omega

/-- The last day of the cycle is the only one after 36524 days of its century. -/
theorem century_eq {doe c q k doy : ℤ} (h : CycleDay doe c q k doy) : doe / 36524 - doe / 146096 = c := by
  obtain ⟨heq, hc, hq, hk, hday, hleap⟩ := h
  rcases (by omega : 1461 * q + 365 * k + doy ≤ 36523 ∨ doe = 146096) with hr | hr
  · have hbelow : doe / 146096 = 0 := by omega
    omega
  · omega

/-- The days of the leap years so far are taken out before the division by 365. -/
theorem yoe_eq {doe c q k doy : ℤ} (h : CycleDay doe c q k doy) :
    (doe - doe.tdiv 1460 + doe.tdiv 36524 - doe.tdiv 146096).tdiv 365 = 100 * c + 4 * q + k := by
  obtain ⟨hrest, hrest'⟩ := rest_bounds h
  have hcentury := century_eq h
  obtain ⟨heq, hc, hq, hk, hday, -⟩ := h
  have hnonneg : 0 ≤ doe := by omega
  have hfours : doe / 1460 = 25 * c + q + (24 * c + q + 365 * k + doy) / 1460 := by
    rw [heq, (by omega : 36524 * c + 1461 * q + 365 * k + doy =
      24 * c + q + 365 * k + doy + 1460 * (25 * c + q)), Int.add_mul_ediv_left _ _ (by decide), add_comm]
  generalize (24 * c + q + 365 * k + doy) / 1460 = u at hrest hrest' hfours
  have hsum : doe - doe / 1460 + doe / 36524 - doe / 146096 = doy - u + 365 * (100 * c + 4 * q + k) := by
    rw [add_sub_assoc, hcentury, hfours, heq]
    clear hcentury hfours
    omega
  rw [Int.tdiv_eq_ediv_of_nonneg hnonneg, Int.tdiv_eq_ediv_of_nonneg hnonneg,
    Int.tdiv_eq_ediv_of_nonneg hnonneg, hsum, Int.tdiv_eq_ediv_of_nonneg (by omega),
    Int.add_mul_ediv_left _ _ (by decide), Int.ediv_eq_zero_of_lt hrest hrest', zero_add]

/-- The year from March on, the month and the day that the cycle has come to. -/
theorem civilFromDays_eq {era doe c q k doy z : ℤ} (h : CycleDay doe c q k doy)
    (hz : z + 719468 = 146097 * era + doe) :
    civilFromDays z =
      let y := 100 * c + 4 * q + k + 400 * era
      let mp := (5 * doy + 2) / 153
      let m := if mp < 10 then mp + 3 else mp - 9
      (if m ≤ 2 then y + 1 else y, m, doy - (153 * mp + 2) / 5 + 1) := by
  have hyoe := yoe_eq h
  obtain ⟨heq, hc, hq, hk, hday, -⟩ := h
  have hera : (z + 719468) / 146097 = era := by omega
  have hdoe : z + 719468 - era * 146097 = doe := by omega
  have hfour : (100 * c + 4 * q + k).tdiv 4 = 25 * c + q := by
    rw [Int.tdiv_eq_ediv_of_nonneg (by omega)]
    omega
  have hcentury : (100 * c + 4 * q + k).tdiv 100 = c := by
    rw [Int.tdiv_eq_ediv_of_nonneg (by omega)]
    omega
  have hdoy : doe - (365 * (100 * c + 4 * q + k) + (25 * c + q) - c) = doy := by omega
  have hmp : (5 * doy + 2).tdiv 153 = (5 * doy + 2) / 153 := Int.tdiv_eq_ediv_of_nonneg (by omega)
  have hbefore : (153 * ((5 * doy + 2) / 153) + 2).tdiv 5 = (153 * ((5 * doy + 2) / 153) + 2) / 5 :=
    Int.tdiv_eq_ediv_of_nonneg (by omega)
  simp only [civilFromDays, era_eq, hera, hdoe, hyoe, hfour, hcentury, hdoy, hmp, hbefore,
    mul_comm era 400]

/-! ## The calendar -/

/-- **The date of a day** is one of the calendar, and has the number of the day. -/
theorem civilFromDays_date (z : ℤ) : ∃ date : Date, civilFromDays z = date.triple ∧ date.dayNumber = z := by
  obtain ⟨era, hera⟩ : ∃ era, era = (z + 719468) / 146097 := ⟨_, rfl⟩
  obtain ⟨doe, hdoe⟩ : ∃ doe, doe = (z + 719468) % 146097 := ⟨_, rfl⟩
  obtain ⟨c, q, k, doy, h⟩ := exists_cycleDay (by omega : 0 ≤ doe) (by omega)
  have hfirst := h.marchFirst_eq era
  have hleap := fun hlast => h.isLeap hlast era
  have heq := civilFromDays_eq h (by omega : z + 719468 = 146097 * era + doe)
  obtain ⟨mp, hmp⟩ : ∃ mp, mp = (5 * doy + 2) / 153 := ⟨_, rfl⟩
  have hday := h.day
  rw [← hmp] at heq
  generalize 100 * c + 4 * q + k + 400 * era = y at *
  by_cases hm : mp < 10
  · have hle : ¬ mp + 3 ≤ 2 := by omega
    simp only [if_pos hm, if_neg hle] at heq
    refine ⟨⟨y, mp + 3, doy - (153 * mp + 2) / 5 + 1, by omega, by omega, by omega, ?_⟩, heq, ?_⟩
    · rw [monthLength, if_neg (by omega)]
      split
      · omega
      · omega
    · rw [Date.dayNumber_eq, Date.marchYear, Date.marchMonth, if_neg hle, if_neg hle]
      simp only [add_sub_cancel_right]
      omega
  · have hle : mp - 9 ≤ 2 := by omega
    simp only [if_neg hm, if_pos hle] at heq
    refine ⟨⟨y + 1, mp - 9, doy - (153 * mp + 2) / 5 + 1, by omega, by omega, by omega, ?_⟩, heq, ?_⟩
    · rw [monthLength]
      by_cases hlast : doy = 365
      · rw [if_pos (by omega), if_pos (hleap hlast)]
        omega
      · split_ifs <;> omega
    · rw [Date.dayNumber_eq, Date.marchYear, Date.marchMonth, if_pos hle, if_pos hle]
      simp only [add_sub_cancel_right, sub_add_cancel]
      omega

/-- The days from 1970-01-01 on are the dates from there on, in their order. -/
noncomputable def dayIso : Set.Ici (0 : ℤ) ≃o Set.Ici Date.epoch :=
  OrderIso.symm <| StrictMono.orderIsoOfSurjective
    (fun d : Set.Ici Date.epoch => (⟨d.1.dayNumber, Date.mem_Ici_epoch.mp d.2⟩ : Set.Ici (0 : ℤ)))
    (fun _ _ h => Date.dayNumber_strictMono h)
    (fun z => by
      obtain ⟨date, -, hnumber⟩ := civilFromDays_date z
      exact ⟨⟨date, Date.mem_Ici_epoch.mpr (hnumber.ge.trans' z.2)⟩, Subtype.ext hnumber⟩)

theorem dayIso_triple (z : Set.Ici (0 : ℤ)) : civilFromDays z = (dayIso z).1.triple := by
  obtain ⟨date, heq, hnumber⟩ := civilFromDays_date z
  have hdate : (dayIso z).1.dayNumber = z := congrArg Subtype.val (dayIso.symm_apply_apply z)
  rw [heq, Date.dayNumber_injective (hnumber.trans hdate.symm)]

/-- **A time in a report** is a date, an hour, a minute and a second that add up to it. -/
theorem iso8601_eq (secs : ℤ) :
    ∃ (date : Date) (hour minute second : ℤ),
      secs = 86400 * date.dayNumber + 3600 * hour + 60 * minute + second ∧
      (0 ≤ hour ∧ hour < 24) ∧ (0 ≤ minute ∧ minute < 60) ∧ (0 ≤ second ∧ second < 60) ∧
      iso8601 secs =
        padded 4 date.year ++ text "-" ++ padded 2 date.month ++ text "-" ++ padded 2 date.day ++ text "T" ++
          padded 2 hour ++ text ":" ++ padded 2 minute ++ text ":" ++ padded 2 second ++ text "Z" := by
  obtain ⟨date, heq, hnumber⟩ := civilFromDays_date (secs / 86400)
  refine ⟨date, secs % 86400 / 3600, secs % 86400 % 3600 / 60, secs % 86400 % 60, by omega, by omega,
    by omega, by omega, ?_⟩
  rw [iso8601, heq]
  rfl

/-! ## Words -/

namespace Word

/-- `civil_from_days` in words that wrap around. -/
def civilFromDays (z : Int64) : Int64 × Int64 × Int64 :=
  let z := z + 719468
  let era := (if 0 ≤ z then z else z - 146096) / 146097
  let doe := z - era * 146097
  let yoe := (doe - doe / 1460 + doe / 36524 - doe / 146096) / 365
  let y := yoe + era * 400
  let doy := doe - (365 * yoe + yoe / 4 - yoe / 100)
  let mp := (5 * doy + 2) / 153
  let d := doy - (153 * mp + 2) / 5 + 1
  let m := if mp < 10 then mp + 3 else mp - 9
  (if m ≤ 2 then y + 1 else y, m, d)

theorem lit (n : ℕ) : (OfNat.ofNat n : Int64) = .ofInt n := Int64.ofInt_eq_ofNat.symm

theorem natCast_bounds {n : ℕ} (h : n < 2 ^ 63) :
    Int64.minValue.toInt ≤ n ∧ (n : ℤ) ≤ Int64.maxValue.toInt := by
  have hmin : Int64.minValue.toInt ≤ 0 := by decide
  have hcast : (n : ℤ) < 2 ^ 63 := by exact_mod_cast h
  exact ⟨hmin.trans (Int.natCast_nonneg n), Int.le_of_lt_add_one hcast⟩

/-- A division of words that stand for numbers of at least zero. -/
theorem div_lit {a : ℤ} {n : ℕ} (ha : 0 ≤ a) (ha' : a < 2 ^ 63) (hn : n < 2 ^ 63) :
    Int64.ofInt a / OfNat.ofNat n = .ofInt (a / n) := by
  have hmin : Int64.minValue.toInt ≤ 0 := by decide
  obtain ⟨hle, hge⟩ := natCast_bounds hn
  rw [lit, ← Int.tdiv_eq_ediv_of_nonneg ha,
    Int64.ofInt_tdiv (hmin.trans ha) (Int.le_of_lt_add_one ha') hle hge]

theorem le_lit {a : ℤ} {n : ℕ} (ha : -2 ^ 63 ≤ a) (ha' : a < 2 ^ 63) (hn : n < 2 ^ 63) :
    Int64.ofInt a ≤ OfNat.ofNat n ↔ a ≤ n := by
  obtain ⟨hle, hge⟩ := natCast_bounds hn
  rw [lit, Int64.ofInt_le_iff_le ha (Int.le_of_lt_add_one ha') hle hge]

theorem lit_le {a : ℤ} {n : ℕ} (ha : -2 ^ 63 ≤ a) (ha' : a < 2 ^ 63) (hn : n < 2 ^ 63) :
    OfNat.ofNat n ≤ Int64.ofInt a ↔ n ≤ a := by
  obtain ⟨hle, hge⟩ := natCast_bounds hn
  rw [lit, Int64.ofInt_le_iff_le hle hge ha (Int.le_of_lt_add_one ha')]

theorem lt_lit {a : ℤ} {n : ℕ} (ha : -2 ^ 63 ≤ a) (ha' : a < 2 ^ 63) (hn : n < 2 ^ 63) :
    Int64.ofInt a < OfNat.ofNat n ↔ a < n := by
  obtain ⟨hle, hge⟩ := natCast_bounds hn
  rw [lit, Int64.ofInt_lt_iff_lt ha (Int.le_of_lt_add_one ha') hle hge]

theorem era_word {z : ℤ} (h : 0 ≤ z) (h' : z < 2 ^ 63) :
    (if (0 : Int64) ≤ .ofInt z then Int64.ofInt z else .ofInt z - 146096) / 146097 = .ofInt (z / 146097) := by
  have hsign : (0 : Int64) ≤ .ofInt z := (lit_le (by omega) h' (by decide)).mpr h
  rw [if_pos hsign]
  exact div_lit h h' (by decide)

theorem doe_word (z era : ℤ) : Int64.ofInt z - .ofInt era * 146097 = .ofInt (z - era * 146097) := by
  rw [lit, ← Int64.ofInt_mul, ← Int64.ofInt_sub]
  rfl

theorem yoe_word {doe c q k doy yoe : ℤ} (h : CycleDay doe c q k doy) (hyoe : yoe = 100 * c + 4 * q + k) :
    (Int64.ofInt doe - .ofInt doe / 1460 + .ofInt doe / 36524 - .ofInt doe / 146096) / 365 = .ofInt yoe := by
  have hyear := yoe_eq h
  rw [← hyoe] at hyear
  obtain ⟨heq, hc, hq, hk, hday, -⟩ := h
  have hdoe : 0 ≤ doe := by omega
  have hleaps : Int64.ofInt doe - .ofInt doe / 1460 + .ofInt doe / 36524 - .ofInt doe / 146096 =
      .ofInt (doe - doe / 1460 + doe / 36524 - doe / 146096) := by
    rw [div_lit hdoe (by omega) (by decide), div_lit hdoe (by omega) (by decide),
      div_lit hdoe (by omega) (by decide), ← Int64.ofInt_sub, ← Int64.ofInt_add, ← Int64.ofInt_sub]
    rfl
  rw [Int.tdiv_eq_ediv_of_nonneg hdoe, Int.tdiv_eq_ediv_of_nonneg hdoe, Int.tdiv_eq_ediv_of_nonneg hdoe,
    Int.tdiv_eq_ediv_of_nonneg (by omega)] at hyear
  rw [hleaps, ← hyear]
  exact div_lit (by omega) (by omega) (by decide)

theorem doy_word {doe c q k doy yoe : ℤ} (h : CycleDay doe c q k doy) (hyoe : yoe = 100 * c + 4 * q + k) :
    Int64.ofInt doe - (365 * .ofInt yoe + .ofInt yoe / 4 - .ofInt yoe / 100) = .ofInt doy := by
  obtain ⟨heq, hc, hq, hk, hday, -⟩ := h
  have hfour : yoe / 4 = 25 * c + q := by omega
  have hcentury : yoe / 100 = c := by omega
  rw [div_lit (by omega) (by omega) (by decide), div_lit (by omega) (by omega) (by decide), lit,
    ← Int64.ofInt_mul, ← Int64.ofInt_add, ← Int64.ofInt_sub, ← Int64.ofInt_sub]
  congr 1
  push_cast
  rw [hfour, hcentury]
  omega

theorem mp_word {doy : ℤ} (h : 0 ≤ doy) (h' : doy ≤ 365) :
    (5 * Int64.ofInt doy + 2) / 153 = .ofInt ((5 * doy + 2) / 153) := by
  rw [lit 5, lit 2, ← Int64.ofInt_mul, ← Int64.ofInt_add]
  exact div_lit (by push_cast; omega) (by push_cast; omega) (by decide)

theorem d_word {mp : ℤ} (h : 0 ≤ mp) (h' : mp ≤ 11) (doy : ℤ) :
    Int64.ofInt doy - (153 * .ofInt mp + 2) / 5 + 1 = .ofInt (doy - (153 * mp + 2) / 5 + 1) := by
  rw [lit 153, lit 2, ← Int64.ofInt_mul, ← Int64.ofInt_add,
    div_lit (by push_cast; omega) (by push_cast; omega) (by decide), lit, ← Int64.ofInt_sub,
    ← Int64.ofInt_add]
  rfl

theorem m_word {mp : ℤ} (h : 0 ≤ mp) (h' : mp ≤ 11) :
    (if Int64.ofInt mp < 10 then Int64.ofInt mp + 3 else .ofInt mp - 9) =
      .ofInt (if mp < 10 then mp + 3 else mp - 9) := by
  have hlt : Int64.ofInt mp < 10 ↔ mp < 10 := lt_lit (by omega) (by omega) (by decide)
  rw [apply_ite Int64.ofInt, Int64.ofInt_add, Int64.ofInt_sub]
  simp only [hlt]
  rfl

theorem y_word {m : ℤ} (h : 1 ≤ m) (h' : m ≤ 12) (yoe era : ℤ) :
    (if Int64.ofInt m ≤ 2 then Int64.ofInt yoe + .ofInt era * 400 + 1 else .ofInt yoe + .ofInt era * 400) =
      .ofInt (if m ≤ 2 then yoe + 400 * era + 1 else yoe + 400 * era) := by
  have hle : Int64.ofInt m ≤ 2 ↔ m ≤ 2 := le_lit (by omega) (by omega) (by decide)
  rw [apply_ite Int64.ofInt, Int64.ofInt_add, Int64.ofInt_add, Int64.ofInt_mul,
    Int64.mul_comm (.ofInt 400)]
  simp only [hle]
  rfl

/-- **No step overflows**, save the first one for the last 719468 days of the words. -/
theorem civilFromDays_eq {z : ℤ} (h : 0 ≤ z) (h' : z + 719468 < 2 ^ 63) :
    civilFromDays (.ofInt z) =
      (.ofInt (Smallfile.civilFromDays z).1, .ofInt (Smallfile.civilFromDays z).2.1,
        .ofInt (Smallfile.civilFromDays z).2.2) := by
  obtain ⟨era, hera⟩ : ∃ era, era = (z + 719468) / 146097 := ⟨_, rfl⟩
  obtain ⟨doe, hdoe⟩ : ∃ doe, doe = z + 719468 - era * 146097 := ⟨_, rfl⟩
  obtain ⟨c, q, k, doy, hcycle⟩ := exists_cycleDay (by omega : 0 ≤ doe) (by omega)
  obtain ⟨hday, hday'⟩ := hcycle.day
  obtain ⟨mp, hmp⟩ : ∃ mp, mp = (5 * doy + 2) / 153 := ⟨_, rfl⟩
  obtain ⟨m, hm⟩ : ∃ m, m = if mp < 10 then mp + 3 else mp - 9 := ⟨_, rfl⟩
  have hsum : Int64.ofInt z + 719468 = .ofInt (z + 719468) := by
    rw [lit, ← Int64.ofInt_add]
    rfl
  have hmp' : 0 ≤ mp ∧ mp ≤ 11 := by omega
  have hmonth : 1 ≤ m ∧ m ≤ 12 := by omega
  rw [Smallfile.civilFromDays_eq hcycle (by omega : z + 719468 = 146097 * era + doe)]
  simp only [civilFromDays, hsum, era_word (by omega : 0 ≤ z + 719468) h', ← hera, doe_word, ← hdoe,
    yoe_word hcycle rfl, doy_word hcycle rfl, mp_word hday hday', ← hmp, d_word hmp'.1 hmp'.2,
    m_word hmp'.1 hmp'.2, ← hm, y_word hmonth.1 hmonth.2]

/-- The words are those of the date. -/
theorem civilFromDays_toInt {z : Int64} (h : 0 ≤ z.toInt) (h' : z.toInt + 719468 < 2 ^ 63) :
    ((civilFromDays z).1.toInt, (civilFromDays z).2.1.toInt, (civilFromDays z).2.2.toInt) =
      Smallfile.civilFromDays z.toInt := by
  obtain ⟨date, heq, hnumber⟩ := civilFromDays_date z.toInt
  have hyear := date.year_bounds (by omega)
  have hone := date.one_le_month
  have hmonth := date.month_le
  have hday := date.one_le_day
  have hday' := date.day_le_31
  have hwords := civilFromDays_eq h h'
  rw [Int64.ofInt_toInt] at hwords
  rw [hwords, heq]
  simp only [Date.triple]
  rw [Int64.toInt_ofInt_of_le (by omega) (by omega), Int64.toInt_ofInt_of_le (by omega) (by omega),
    Int64.toInt_ofInt_of_le (by omega) (by omega)]

/-- The days of every time that `iso8601` gets are far from the end of the words. -/
theorem days_bounds {secs : Int64} (h : 0 ≤ secs.toInt) :
    (secs / 86400).toInt = secs.toInt / 86400 ∧ (secs / 86400).toInt + 719468 < 2 ^ 63 := by
  have hsecs : secs.toInt < 2 ^ 63 := secs.toInt_lt
  have hdiv : (secs / 86400).toInt = secs.toInt / 86400 := by
    rw [Int64.toInt_div_of_ne_right _ _ (by decide)]
    exact Int.tdiv_eq_ediv_of_nonneg h
  exact ⟨hdiv, by omega⟩

end Word

/-- **The dates of the reports** are those of the calendar. -/
theorem civilFromDays_calendar :
    (∀ z, 0 ≤ z → ∃ date : Date, civilFromDays z = date.triple ∧
      ∀ other : Date, other.dayNumber = z ↔ other = date) ∧
    (∃ f : Set.Ici (0 : ℤ) ≃o Set.Ici Date.epoch, ∀ z : Set.Ici (0 : ℤ),
      civilFromDays z = (f z).1.triple) ∧
    (∀ z : Int64, 0 ≤ z.toInt → z.toInt + 719468 < 2 ^ 63 →
      ((Word.civilFromDays z).1.toInt, (Word.civilFromDays z).2.1.toInt, (Word.civilFromDays z).2.2.toInt) =
        civilFromDays z.toInt) ∧
    ∀ secs : Int64, 0 ≤ secs.toInt →
      (secs / 86400).toInt = secs.toInt / 86400 ∧ (secs / 86400).toInt + 719468 < 2 ^ 63 := by
  refine ⟨?_, ⟨dayIso, dayIso_triple⟩, fun z => Word.civilFromDays_toInt, fun secs => Word.days_bounds⟩
  intro z _
  obtain ⟨date, heq, hnumber⟩ := civilFromDays_date z
  refine ⟨date, heq, fun other => ⟨fun h => Date.dayNumber_injective (h.trans hnumber.symm), ?_⟩⟩
  rintro rfl
  exact hnumber

theorem civilFromDays_calendar_leapDay :
    civilFromDays 19782 = (2024, 2, 29) ∧
      ∃ date : Date, civilFromDays 19782 = date.triple ∧
        ∀ other : Date, other.dayNumber = 19782 ↔ other = date :=
  ⟨by decide +kernel, civilFromDays_calendar.1 19782 (by decide)⟩

end Fstest.Smallfile
