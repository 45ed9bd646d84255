import Mathlib.Data.Nat.Find
import Mathlib.Tactic

/-!
# The calendar

Days are counted from the first of January of the year 0 of the Gregorian calendar.  A day
is found by the greatest year, and in it the greatest month, that begins no later.  So dates
are ordered like the days.
-/

namespace Bazalt.Lib

/-! ## Places -/

/-- The greatest place up to `bound` that starts no later than `d`. -/
def place (start : ℕ → ℕ) (bound d : ℕ) : ℕ := Nat.findGreatest (fun k ↦ start k ≤ d) bound

section

variable {start : ℕ → ℕ}

theorem start_place_le (hzero : start 0 = 0) (bound d : ℕ) : start (place start bound d) ≤ d :=
  Nat.findGreatest_spec (P := fun k ↦ start k ≤ d) (Nat.zero_le bound) (by omega)

theorem lt_start_succ_place {bound d : ℕ} (h : place start bound d < bound) :
    d < start (place start bound d + 1) :=
  not_le.mp (Nat.findGreatest_is_greatest (P := fun k ↦ start k ≤ d) (Nat.lt_succ_self _) h)

/-- Of two points the later one has the later place, or it is further on in the same. -/
theorem place_lt_or (hzero : start 0 = 0) {bound bound' d d' : ℕ} (hbound : bound ≤ bound')
    (h : d < d') : place start bound d < place start bound' d' ∨
      place start bound d = place start bound' d' ∧
        d - start (place start bound d) < d' - start (place start bound' d') := by
  have hle : place start bound d ≤ place start bound' d' :=
    Nat.findGreatest_mono (fun k (hk : start k ≤ d) ↦ hk.trans h.le) hbound
  rcases hle.lt_or_eq with hlt | heq
  · exact .inl hlt
  · have hstart := start_place_le hzero bound d
    rw [heq] at hstart ⊢
    exact .inr ⟨rfl, by omega⟩

end

/-! ## Dates -/

def isLeap (year : ℕ) : Bool := year % 4 = 0 && (year % 100 ≠ 0 || year % 400 = 0)

/-- The days before a year. -/
def yearStart (year : ℕ) : ℕ :=
  365 * year + (year + 3) / 4 - (year + 99) / 100 + (year + 399) / 400

/-- The days of a year before a month; months are counted from 0. -/
def monthStart (leap : Bool) (month : ℕ) : ℕ :=
  [0, 31, 59, 90, 120, 151, 181, 212, 243, 273, 304, 334].getD month 0 +
    if leap && decide (2 ≤ month) then 1 else 0

structure Date where
  year : ℕ
  month : ℕ
  day : ℕ
  deriving DecidableEq, Repr

def yearOf (days : ℕ) : ℕ := place yearStart (days / 365) days

def monthOf (leap : Bool) (dayOfYear : ℕ) : ℕ := place (monthStart leap) 11 dayOfYear

def dateOf (days : ℕ) : Date :=
  let year := yearOf days
  let dayOfYear := days - yearStart year
  let month := monthOf (isLeap year) dayOfYear
  ⟨year, month + 1, dayOfYear - monthStart (isLeap year) month + 1⟩

/-- Every `n` years, from the year 0 on. -/
theorem ceil_div_succ {n : ℕ} (hn : 0 < n) (year : ℕ) :
    (year + 1 + (n - 1)) / n = (year + (n - 1)) / n + if year % n = 0 then 1 else 0 := by
  have hsum : year + 1 + (n - 1) = year + n := by omega
  rw [hsum, Nat.add_div_right _ hn]
  split_ifs with h
  · obtain ⟨k, rfl⟩ := Nat.dvd_of_mod_eq_zero h
    rw [Nat.mul_div_cancel_left _ hn, Nat.mul_add_div hn, Nat.div_eq_of_lt (by omega)]
  · have hmod := Nat.mod_lt year hn
    conv_rhs => rw [← Nat.div_add_mod year n, add_assoc, Nat.mul_add_div hn]
    have hone : (year % n + (n - 1)) / n = 1 :=
      Nat.div_eq_of_lt_le (by omega) (by omega)
    omega

theorem yearStart_succ (year : ℕ) :
    yearStart (year + 1) = yearStart year + 365 + if isLeap year then 1 else 0 := by
  have h4 := ceil_div_succ (n := 4) (by omega) year
  have h100 := ceil_div_succ (n := 100) (by omega) year
  have h400 := ceil_div_succ (n := 400) (by omega) year
  have hle : (year + 99) / 100 ≤ year := by omega
  have himp : year % 100 = 0 → year % 4 = 0 := by omega
  have himp' : year % 400 = 0 → year % 100 = 0 := by omega
  simp only [Nat.reduceSub] at h4 h100 h400
  simp only [yearStart, isLeap, h4, h100, h400, Bool.and_eq_true, Bool.or_eq_true, decide_eq_true_eq]
  generalize (year + 3) / 4 = x at *
  generalize (year + 99) / 100 = y at *
  generalize (year + 399) / 400 = z at *
  split_ifs <;> omega

theorem yearStart_le_of_le {a b : ℕ} (h : a ≤ b) : yearStart a ≤ yearStart b := by
  refine monotone_nat_of_le_succ (fun year ↦ ?_) h
  rw [yearStart_succ, add_assoc]
  exact Nat.le_add_right _ _

theorem lt_yearStart_succ (days : ℕ) : days < yearStart (yearOf days + 1) := by
  rcases Nat.lt_or_ge (yearOf days) (days / 365) with hlt | hge
  · exact lt_start_succ_place hlt
  · have hdays := Nat.div_add_mod days 365
    have hmod := Nat.mod_lt days (show 0 < 365 by omega)
    unfold yearStart
    omega

theorem yearOf_lt {days year : ℕ} (h : days < yearStart year) : yearOf days < year := by
  by_contra hge
  have hstart : yearStart (place yearStart (days / 365) days) ≤ days := start_place_le rfl _ _
  have hle := yearStart_le_of_le (not_lt.mp hge)
  unfold yearOf at hle
  omega

theorem month_lt (days : ℕ) : (dateOf days).month ≤ 12 := by
  have h : monthOf (isLeap (yearOf days)) (days - yearStart (yearOf days)) ≤ 11 :=
    Nat.findGreatest_le (P := fun k ↦ monthStart _ k ≤ _) 11
  simp only [dateOf]
  omega

/-- No month has more than 31 days. -/
theorem monthOf_spec (leap : Bool) {dayOfYear : ℕ} (h : dayOfYear < 365 + if leap then 1 else 0) :
    dayOfYear - monthStart leap (monthOf leap dayOfYear) < 31 := by
  have hle : monthOf leap dayOfYear ≤ 11 :=
    Nat.findGreatest_le (P := fun k ↦ monthStart leap k ≤ dayOfYear) 11
  have hnext : monthOf leap dayOfYear < 11 →
      dayOfYear < monthStart leap (monthOf leap dayOfYear + 1) := lt_start_succ_place
  generalize monthOf leap dayOfYear = month at hle hnext ⊢
  cases leap with
  | false =>
      interval_cases month <;> simp [monthStart] at h hnext ⊢ <;> omega
  | true =>
      interval_cases month <;> simp [monthStart] at h hnext ⊢ <;> omega

theorem day_le (days : ℕ) : (dateOf days).day ≤ 31 := by
  have hlt := lt_yearStart_succ days
  have hstart : yearStart (place yearStart (days / 365) days) ≤ days := start_place_le rfl _ _
  rw [yearStart_succ] at hlt
  have hday : days - yearStart (yearOf days) < 365 + if isLeap (yearOf days) then 1 else 0 := by
    unfold yearOf at hlt ⊢
    omega
  have hspec := monthOf_spec (isLeap (yearOf days)) hday
  simp only [dateOf]
  omega

/-- Dates are ordered like the days. -/
theorem dateOf_lt {d d' : ℕ} (h : d < d') :
    (dateOf d).year < (dateOf d').year ∨ (dateOf d).year = (dateOf d').year ∧
      ((dateOf d).month < (dateOf d').month ∨ (dateOf d).month = (dateOf d').month ∧
        (dateOf d).day < (dateOf d').day) := by
  simp only [dateOf]
  have hzero : yearStart 0 = 0 := rfl
  rcases place_lt_or hzero (Nat.div_le_div_right h.le) h with hyear | ⟨hyear, hrest⟩
  · exact .inl hyear
  · refine .inr ⟨hyear, ?_⟩
    change yearOf d = yearOf d' at hyear
    change d - yearStart (yearOf d) < d' - yearStart (yearOf d') at hrest
    have hzero : ∀ leap, monthStart leap 0 = 0 := by decide
    rcases place_lt_or (hzero (isLeap (yearOf d'))) (le_refl 11) hrest with hmonth | ⟨hmonth, hday⟩
    · left
      rw [hyear] at hmonth ⊢
      exact Nat.succ_lt_succ hmonth
    · right
      rw [hyear] at hmonth hday ⊢
      exact ⟨congrArg (· + 1) hmonth, Nat.succ_lt_succ hday⟩

end Bazalt.Lib
